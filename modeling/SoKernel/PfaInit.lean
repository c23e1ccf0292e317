import SoKernel.Pfa

/-!
`pfa_init`: the walk over the boot loader's memory map, the fallback to
`mem_upper`, and the reservations that follow. The frames that are free
afterwards are characterized exactly, and from that, that none of them is
memory that must not be handed out.
-/
namespace SoKernel.PfaInit
open SoKernel.Words SoKernel.Pages SoKernel.Pfa
set_option linter.unusedSimpArgs false

def MULTIBOOT_INFO_MEMORY : Word := 1#32 <<< 0
def MULTIBOOT_INFO_MMAP : Word := 1#32 <<< 6

/-- The fields of `struct multiboot_info` that `pfa_init` reads. -/
structure MultibootInfo where
  flags : Word
  mem_upper : Word
  mmap_length : Word
  mmap_addr : Word
/-- `sizeof(struct multiboot_info)`: thirteen packed words. -/
def sizeof_multiboot_info : Word := 52#32

def multiboot_info (m : Memory) (a : Word) : MultibootInfo where
  flags := read32 m a
  mem_upper := read32 m (a+8#32)
  mmap_length := read32 m (a+44#32)
  mmap_addr := read32 m (a+48#32)

/-- `struct multiboot_mmap_entry`, which is packed. -/
structure MmapEntry where
  size : Word
  addr : BitVec 64
  len : BitVec 64
  type : Word
deriving DecidableEq

def multiboot_mmap_entry (m : Memory) (a : Word) : MmapEntry where
  size := read32 m a
  addr := read64 m (a+4#32)
  len := read64 m (a+12#32)
  type := read32 m (a+20#32)

/-- The 32-bit end of an entry, cut at 4 GiB. -/
def MmapEntry.clampedEnd (entry : MmapEntry) : Word :=
  let end64 := entry.addr+entry.len
  if 0x100000000#64 < end64 then 0xFFFFFFFF#32 else end64.setWidth 32

/-- The body of the loop over the memory map. -/
def free_entry (s : Frames) (entry : MmapEntry) : Frames :=
  if entry.type = 1#32 then
    if entry.addr < 0x100000000#64 then mark_region_free s (entry.addr.setWidth 32) entry.clampedEnd else s
  else s

/-- The loop over the memory map; `none` when it has not ended after `fuel`
    tests of its condition. -/
def mmap_walk (m : Memory) (mmap_end : Word) : Nat → Word → Frames → Option Frames
  | 0, _, _ => none
  | fuel+1, mmap_curr, s =>
    if mmap_curr < mmap_end then
      let entry := multiboot_mmap_entry m mmap_curr
      mmap_walk m mmap_end fuel (mmap_curr+(entry.size+4#32)) (free_entry s entry)
    else some s

/-- Every frame marked used, as the first loop of `pfa_init` leaves them. -/
def all_used : Frames where
  frame_bitmap := fun _ => 0xFFFFFFFF#32
  total_frame_count := BitVec.ofNat 32 MAX_FRAMES
  used_frame_count := BitVec.ofNat 32 MAX_FRAMES

/-- The reservations at the end of `pfa_init`. -/
def reserve_boot (s : Frames) (mbi : MultibootInfo) (multiboot_info_addr kernel_physical_start
    kernel_physical_end : Word) : Frames :=
  let s := mark_region_used s 0#32 (BitVec.ofNat 32 PAGE_SIZE)
  let s := mark_region_used s kernel_physical_start kernel_physical_end
  let s := mark_region_used s multiboot_info_addr (multiboot_info_addr+sizeof_multiboot_info)
  if mbi.flags &&& MULTIBOOT_INFO_MMAP ≠ 0#32 then
    mark_region_used s mbi.mmap_addr (mbi.mmap_addr+mbi.mmap_length)
  else s

def pfa_init (fuel : Nat) (m : Memory) (multiboot_info_addr kernel_physical_start kernel_physical_end : Word) :
    Option Frames :=
  let mbi := multiboot_info m multiboot_info_addr
  let freed :=
    if mbi.flags &&& MULTIBOOT_INFO_MMAP ≠ 0#32 then
      mmap_walk m (mbi.mmap_addr+mbi.mmap_length) fuel mbi.mmap_addr all_used
    else if mbi.flags &&& MULTIBOOT_INFO_MEMORY ≠ 0#32 then
      some (mark_region_free all_used 0x00100000#32 (0x00100000#32+mbi.mem_upper*1024#32))
    else some all_used
  freed.map (fun s => reserve_boot s mbi multiboot_info_addr kernel_physical_start kernel_physical_end)

/-! ### The walk -/

/-- The addresses of the entries that the walk reads from `curr` on. -/
inductive Visits (m : Memory) (mmap_end : Word) : Word → Word → Prop
  | here {curr : Word} : curr < mmap_end → Visits m mmap_end curr curr
  | next {curr a : Word} : curr < mmap_end →
      Visits m mmap_end (curr+((multiboot_mmap_entry m curr).size+4#32)) a → Visits m mmap_end curr a

/-- The frames that the loop body frees for one entry. -/
def Frees (entry : MmapEntry) (f : Nat) : Prop :=
  entry.type = 1#32 ∧ entry.addr < 0x100000000#64 ∧ FreeRegion (entry.addr.setWidth 32) entry.clampedEnd f

theorem free_entry_free_iff (s : Frames) (entry : MmapEntry) (f : Nat) :
    is_used (free_entry s entry) f = false ↔ Frees entry f ∨ is_used s f = false := by
  rw [free_entry]
  by_cases usable : entry.type = 1#32
  · by_cases below : entry.addr < 0x100000000#64
    · simp only [usable,below,if_true,is_used_mark_region_free,Frees,true_and]
      by_cases inside : FreeRegion (entry.addr.setWidth 32) entry.clampedEnd f <;> simp [inside]
    · simp [usable,below,Frees]
  · simp [usable,Frees]

theorem visits_iff (m : Memory) (mmap_end curr a : Word) : Visits m mmap_end curr a ↔
    curr < mmap_end ∧ (a = curr ∨ Visits m mmap_end (curr+((multiboot_mmap_entry m curr).size+4#32)) a) := by
  constructor
  · intro visits
    cases visits with
    | here inside => exact ⟨inside,.inl rfl⟩
    | next inside later => exact ⟨inside,.inr later⟩
  · rintro ⟨inside,rfl | later⟩
    · exact .here inside
    · exact .next inside later

theorem visits_inside {m : Memory} {mmap_end curr a : Word} (visits : Visits m mmap_end curr a) : a < mmap_end := by
  induction visits with
  | here inside => exact inside
  | next _ _ ih => exact ih

/-- The walk frees exactly the frames of the entries it reads. -/
theorem mmap_walk_free_iff {m : Memory} {mmap_end : Word} {fuel : Nat} {curr : Word} {s t : Frames}
    (ended : mmap_walk m mmap_end fuel curr s = some t) (f : Nat) :
    is_used t f = false ↔
      (∃ a, Visits m mmap_end curr a ∧ Frees (multiboot_mmap_entry m a) f) ∨ is_used s f = false := by
  induction fuel generalizing curr s with
  | zero => cases ended
  | succ fuel ih =>
    rw [mmap_walk] at ended
    by_cases inside : curr < mmap_end
    · rw [if_pos inside] at ended
      rw [ih ended,free_entry_free_iff]
      constructor
      · rintro (⟨a,later,frees⟩ | frees | free)
        · exact .inl ⟨a,.next inside later,frees⟩
        · exact .inl ⟨curr,.here inside,frees⟩
        · exact .inr free
      · rintro (⟨a,visits,frees⟩ | free)
        · rcases ((visits_iff ..).mp visits).2 with rfl | later
          · exact .inr (.inl frees)
          · exact .inl ⟨a,later,frees⟩
        · exact .inr (.inr free)
    · rw [if_neg inside] at ended
      cases ended
      have none : ∀ a, ¬ Visits m mmap_end curr a := fun a visits => inside ((visits_iff ..).mp visits).1
      simp [none]

/-! ### What is free afterwards -/

/-- The boot data that `pfa_init` is called with. -/
structure Boot where
  mem : Memory
  multiboot_info_addr : Word
  kernel_physical_start : Word
  kernel_physical_end : Word

namespace Boot
variable (b : Boot)

def mbi : MultibootInfo := multiboot_info b.mem b.multiboot_info_addr
def HasMap : Prop := b.mbi.flags &&& MULTIBOOT_INFO_MMAP ≠ 0#32
def HasMemory : Prop := b.mbi.flags &&& MULTIBOOT_INFO_MEMORY ≠ 0#32
def init (fuel : Nat) : Option Frames :=
  pfa_init fuel b.mem b.multiboot_info_addr b.kernel_physical_start b.kernel_physical_end
/-- An entry of the memory map: one that the walk reads. -/
def Entry (entry : MmapEntry) : Prop :=
  ∃ a, Visits b.mem (b.mbi.mmap_addr+b.mbi.mmap_length) b.mbi.mmap_addr a ∧ entry = multiboot_mmap_entry b.mem a

instance : Decidable b.HasMap := inferInstanceAs (Decidable (_ ≠ _))
instance : Decidable b.HasMemory := inferInstanceAs (Decidable (_ ≠ _))

/-- The frames that are freed before anything is reserved. -/
def Freed (f : Nat) : Prop :=
  (b.HasMap ∧ ∃ entry, b.Entry entry ∧ Frees entry f) ∨
    (¬ b.HasMap ∧ b.HasMemory ∧ FreeRegion 0x00100000#32 (0x00100000#32+b.mbi.mem_upper*1024#32) f)

/-- The frames that `pfa_init` marks used by a reservation. -/
def Reserved (f : Nat) : Prop :=
  UsedRegion 0#32 (BitVec.ofNat 32 PAGE_SIZE) f ∨
    UsedRegion b.kernel_physical_start b.kernel_physical_end f ∨
    UsedRegion b.multiboot_info_addr (b.multiboot_info_addr+sizeof_multiboot_info) f ∨
    (b.HasMap ∧ UsedRegion b.mbi.mmap_addr (b.mbi.mmap_addr+b.mbi.mmap_length) f)

end Boot

@[simp] theorem is_used_all_used (f : Nat) : is_used all_used f = true := by
  rw [is_used_bit]
  have inside : f%32 < 32 := Nat.mod_lt _ (by decide)
  have ones : (0xFFFFFFFF#32 : Word) = BitVec.allOnes 32 := by decide
  simp only [all_used,ones,BitVec.getLsbD_allOnes,inside,decide_true]

theorem reserve_boot_free_iff (b : Boot) (s : Frames) (f : Nat) :
    is_used (reserve_boot s b.mbi b.multiboot_info_addr b.kernel_physical_start b.kernel_physical_end) f = false ↔
      is_used s f = false ∧ ¬ b.Reserved f := by
  have cases : b.mbi.flags &&& MULTIBOOT_INFO_MMAP ≠ 0#32 ↔ b.HasMap := Iff.rfl
  simp only [reserve_boot,cases,Boot.Reserved]
  by_cases map : b.HasMap
  · simp only [map,if_true,is_used_mark_region_used,Bool.or_eq_false_iff,decide_eq_false_iff_not,true_and,not_or]
    tauto
  · simp only [map,if_false,is_used_mark_region_used,Bool.or_eq_false_iff,decide_eq_false_iff_not,false_and,not_or]
    tauto

/-- A frame is free after `pfa_init` exactly when it was freed and lies in no
    reservation. -/
theorem init_free_iff {b : Boot} {fuel : Nat} {s : Frames} (ended : b.init fuel = some s) (f : Nat) :
    is_used s f = false ↔ b.Freed f ∧ ¬ b.Reserved f := by
  have cases : b.mbi.flags &&& MULTIBOOT_INFO_MMAP ≠ 0#32 ↔ b.HasMap := Iff.rfl
  have cases' : b.mbi.flags &&& MULTIBOOT_INFO_MEMORY ≠ 0#32 ↔ b.HasMemory := Iff.rfl
  simp only [Boot.init,pfa_init,Option.map_eq_some_iff] at ended
  obtain ⟨t,freed,rfl⟩ := ended
  change is_used (reserve_boot t b.mbi _ _ _) f = false ↔ _
  rw [reserve_boot_free_iff]
  refine and_congr_left (fun _ => ?_)
  change (if b.mbi.flags &&& MULTIBOOT_INFO_MMAP ≠ 0#32 then
      mmap_walk b.mem (b.mbi.mmap_addr+b.mbi.mmap_length) fuel b.mbi.mmap_addr all_used
    else if b.mbi.flags &&& MULTIBOOT_INFO_MEMORY ≠ 0#32 then
      some (mark_region_free all_used 0x00100000#32 (0x00100000#32+b.mbi.mem_upper*1024#32))
    else some all_used) = some t at freed
  simp only [cases,cases'] at freed
  by_cases map : b.HasMap
  · rw [if_pos map] at freed
    rw [mmap_walk_free_iff freed]
    simp [Boot.Freed,map,Boot.Entry]
  · by_cases memory : b.HasMemory
    · rw [if_neg map,if_pos memory,Option.some_inj] at freed
      simp [← freed,Boot.Freed,map,memory]
    · rw [if_neg map,if_neg memory,Option.some_inj] at freed
      simp [← freed,Boot.Freed,map,memory]

/-! ### Only usable memory is free -/

/-- The frame lies wholly inside a range of bytes. -/
def Inside (f start stop : Nat) : Prop := start ≤ f*4096 ∧ f*4096+4096 ≤ stop
/-- The frame has a byte in a range of bytes. -/
def Shares (f start stop : Nat) : Prop := ∃ byte, start ≤ byte ∧ byte < stop ∧ f*4096 ≤ byte ∧ byte < f*4096+4096

/-- What is assumed of the boot loader's data. -/
structure LoaderData (b : Boot) : Prop where
  noOverflow : ∀ entry, b.Entry entry → entry.type = 1#32 → entry.addr.toNat+entry.len.toNat < 2^64
  lowStart : ∀ entry, b.Entry entry → entry.type = 1#32 → entry.addr.toNat < 2^32 → entry.addr.toNat ≤ 0xFFFFF000
  imageEnd : b.kernel_physical_end.toNat ≤ 0xFFFFF000
  infoEnd : b.multiboot_info_addr.toNat+52 ≤ 0xFFFFF000
  mapEnd : b.HasMap → b.mbi.mmap_addr.toNat+b.mbi.mmap_length.toNat ≤ 0xFFFFF000

/-- A frame of usable memory by the memory map or, without one, by `mem_upper`. -/
def Usable (b : Boot) (f : Nat) : Prop :=
  (b.HasMap ∧ ∃ entry, b.Entry entry ∧ entry.type = 1#32 ∧
      Inside f entry.addr.toNat (entry.addr.toNat+entry.len.toNat)) ∨
    (¬ b.HasMap ∧ b.HasMemory ∧ Inside f 0x100000 (0x100000+b.mbi.mem_upper.toNat*1024))

/-- A range that does not reach into the last page is reserved to its last byte. -/
theorem shares_usedRegion {f : Nat} {a b : Word} (ends : b.toNat ≤ 0xFFFFF000) (shares : Shares f a.toNat b.toNat) :
    UsedRegion a b f := by
  obtain ⟨byte,low,high,first,last⟩ := shares
  simp only [UsedRegion]
  omega

theorem clampedEnd_toNat {entry : MmapEntry} (noOverflow : entry.addr.toNat+entry.len.toNat < 2^64) :
    entry.clampedEnd.toNat =
      if 2^32 < entry.addr.toNat+entry.len.toNat then 2^32-1 else (entry.addr.toNat+entry.len.toNat) % 2^32 := by
  have sum : (entry.addr+entry.len).toNat = entry.addr.toNat+entry.len.toNat := by
    rw [BitVec.toNat_add,Nat.mod_eq_of_lt noOverflow]
  have far : 0x100000000#64 < entry.addr+entry.len ↔ 2^32 < entry.addr.toNat+entry.len.toNat := by
    rw [BitVec.lt_def,sum]
    rfl
  simp only [MmapEntry.clampedEnd,far,apply_ite BitVec.toNat,BitVec.toNat_setWidth,sum]
  rfl

/-- The last address of an entry is not rounded up by cutting it at 4 GiB. -/
theorem clampedEnd_le {entry : MmapEntry} (noOverflow : entry.addr.toNat+entry.len.toNat < 2^64) :
    entry.clampedEnd.toNat ≤ entry.addr.toNat+entry.len.toNat := by
  rw [clampedEnd_toNat noOverflow]
  split
  · omega
  · exact Nat.mod_le _ _

theorem frees_inside {entry : MmapEntry} {f : Nat} (noOverflow : entry.addr.toNat+entry.len.toNat < 2^64)
    (lowStart : entry.addr.toNat < 2^32 → entry.addr.toNat ≤ 0xFFFFF000) (frees : Frees entry f) :
    Inside f entry.addr.toNat (entry.addr.toNat+entry.len.toNat) := by
  obtain ⟨_,below,first,last⟩ := frees
  have cut := clampedEnd_le noOverflow
  have small : entry.addr.toNat < 2^32 := by simpa [BitVec.lt_def] using below
  have start := lowStart small
  rw [BitVec.toNat_setWidth,Nat.mod_eq_of_lt small] at first
  simp only [Inside]
  omega

theorem freed_usable {b : Boot} (data : LoaderData b) {f : Nat} (freed : b.Freed f) : Usable b f := by
  rcases freed with ⟨map,entry,isEntry,frees⟩ | ⟨noMap,memory,first,last⟩
  · exact .inl ⟨map,entry,isEntry,frees.1,
      frees_inside (data.noOverflow entry isEntry frees.1) (data.lowStart entry isEntry frees.1) frees⟩
  · refine .inr ⟨noMap,memory,?_⟩
    -- Wrapping can only make the 32-bit top smaller than the exact one.
    have top : (0x00100000#32+b.mbi.mem_upper*1024#32).toNat ≤ 0x100000+b.mbi.mem_upper.toNat*1024 := by
      rw [BitVec.toNat_add,BitVec.toNat_mul]
      simp only [BitVec.toNat_ofNat]
      omega
    simp only [BitVec.toNat_ofNat] at first
    simp only [Inside]
    omega

/-- `pfa_init` frees only frames of usable memory, and none that shares a byte
    with frame 0, the kernel image, the boot information or the memory map. -/
theorem init_frees_only_usable {b : Boot} (data : LoaderData b) {fuel : Nat} {s : Frames}
    (ended : b.init fuel = some s) {f : Nat} (free : is_used s f = false) :
    Usable b f ∧ ¬ Shares f 0 4096 ∧ ¬ Shares f b.kernel_physical_start.toNat b.kernel_physical_end.toNat ∧
      ¬ Shares f b.multiboot_info_addr.toNat (b.multiboot_info_addr.toNat+52) ∧
      (b.HasMap → ¬ Shares f b.mbi.mmap_addr.toNat (b.mbi.mmap_addr.toNat+b.mbi.mmap_length.toNat)) := by
  obtain ⟨freed,unreserved⟩ := (init_free_iff ended f).mp free
  simp only [Boot.Reserved,not_or] at unreserved
  obtain ⟨zero,image,info,map⟩ := unreserved
  refine ⟨freed_usable data freed,?_,?_,?_,?_⟩
  · intro shares
    exact zero (shares_usedRegion (by decide) shares)
  · intro shares
    exact image (shares_usedRegion data.imageEnd shares)
  · intro shares
    have infoEnd := data.infoEnd
    have noWrap : (b.multiboot_info_addr+sizeof_multiboot_info).toNat = b.multiboot_info_addr.toNat+52 := by
      rw [sizeof_multiboot_info,BitVec.toNat_add,BitVec.toNat_ofNat]
      omega
    rw [← noWrap] at shares infoEnd
    exact info (shares_usedRegion infoEnd shares)
  · intro hasMap shares
    have mapEnd := data.mapEnd hasMap
    have noWrap : (b.mbi.mmap_addr+b.mbi.mmap_length).toNat = b.mbi.mmap_addr.toNat+b.mbi.mmap_length.toNat := by
      rw [BitVec.toNat_add]
      omega
    rw [← noWrap] at shares mapEnd
    exact map ⟨hasMap,shares_usedRegion mapEnd shares⟩

/-- The page of the boot directory on the small PC. -/
def pcDirectory : Memory :=
  Nat.fold 1024 (fun i _ m => write32 m (slot 0x104000#32 i) (BitVec.ofNat 32 i <<< 22 ||| 0x83#32)) (fun _ => 0#8)

/-- The words that the boot loader of the small PC has written. -/
def pcWords : List (Word × Word) :=
  [(0x10000#32,0x49#32),(0x10008#32,0x7C00#32),(0x10014#32,1#32),(0x10018#32,0x10080#32),
    (0x1002C#32,48#32),(0x10030#32,0x10100#32),
    (0x10080#32,0x200000#32),(0x10084#32,0x201484#32),
    (0x10100#32,20#32),(0x10104#32,0#32),(0x1010C#32,0x9FC00#32),(0x10114#32,1#32),
    (0x10118#32,20#32),(0x1011C#32,0x100000#32),(0x10124#32,0x1F00000#32),(0x1012C#32,1#32),
    (0x200000#32,0x534F4653#32),(0x200004#32,2#32),
    (0x200008#32,0x6C6C6568#32),(0x20000C#32,0x6F#32),(0x200048#32,152#32),(0x20004C#32,100#32),
    (0x200050#32,0x6C656873#32),(0x200054#32,0x6C#32),(0x200090#32,252#32),(0x200094#32,5000#32)]

def pcMemory : Memory :=
  pcWords.foldl (fun m write => write32 m write.1 write.2) (fun a => if pageOf a = 0x104 then pcDirectory a else 0#8)

/-- A small PC as a boot loader describes it: two usable ranges, the kernel at
    1 MiB with its boot directory in the fifth page, the boot information in frame
    16, and at 2 MiB an initrd with the programs `hello` of 100 bytes and `shell`
    of 5000 bytes. -/
def pc : Boot where
  mem := pcMemory
  multiboot_info_addr := 0x10000#32
  kernel_physical_start := 0x100000#32
  kernel_physical_end := 0x140000#32

/-- A memory map of two entries. -/
theorem two_entries {b : Boot} (first second : Word) (start : b.mbi.mmap_addr = first)
    (stop : b.mbi.mmap_addr+b.mbi.mmap_length = second+((multiboot_mmap_entry b.mem second).size+4#32))
    (next : first+((multiboot_mmap_entry b.mem first).size+4#32) = second)
    (inside : first < second+((multiboot_mmap_entry b.mem second).size+4#32) ∧
      second < second+((multiboot_mmap_entry b.mem second).size+4#32)) (entry : MmapEntry) :
    b.Entry entry ↔ entry = multiboot_mmap_entry b.mem first ∨ entry = multiboot_mmap_entry b.mem second := by
  have visits : ∀ a, Visits b.mem (second+((multiboot_mmap_entry b.mem second).size+4#32)) first a ↔
      a = first ∨ a = second := by
    intro a
    rw [visits_iff,next,visits_iff,visits_iff]
    simp [inside]
  rw [Boot.Entry,stop,start]
  simp only [visits]
  constructor
  · rintro ⟨a,rfl | rfl,rfl⟩
    · exact .inl rfl
    · exact .inr rfl
  · rintro (rfl | rfl)
    · exact ⟨_,.inl rfl,rfl⟩
    · exact ⟨_,.inr rfl,rfl⟩

theorem pc_entries (entry : MmapEntry) : pc.Entry entry ↔
    entry = ⟨20#32,0#64,0x9FC00#64,1#32⟩ ∨ entry = ⟨20#32,0x100000#64,0x1F00000#64,1#32⟩ := by
  have first : multiboot_mmap_entry pc.mem 0x10100#32 = ⟨20#32,0#64,0x9FC00#64,1#32⟩ := by decide +kernel
  have second : multiboot_mmap_entry pc.mem 0x10118#32 = ⟨20#32,0x100000#64,0x1F00000#64,1#32⟩ := by decide +kernel
  rw [two_entries 0x10100#32 0x10118#32 (by decide +kernel) (by rw [second]; decide +kernel)
    (by rw [first]; decide) (by rw [second]; decide),first,second]

theorem pc_loaderData : LoaderData pc where
  noOverflow := by
    intro entry isEntry _
    rcases (pc_entries entry).mp isEntry with rfl | rfl <;> decide
  lowStart := by
    intro entry isEntry _ _
    rcases (pc_entries entry).mp isEntry with rfl | rfl <;> decide
  imageEnd := by decide
  infoEnd := by decide
  mapEnd := by decide +kernel

theorem pc_init : ∃ s, pc.init 3 = some s := Option.isSome_iff_exists.mp (by decide +kernel)

/-- On the PC the low frames below the boot information are free. -/
theorem pc_low_free {s : Frames} (ended : pc.init 3 = some s) {f : Nat} (low : 0 < f) (high : f < 16) :
    is_used s f = false := by
  refine (init_free_iff ended f).mpr ⟨.inl ⟨by decide +kernel,_,(pc_entries _).mpr (.inl rfl),rfl,by decide,?_⟩,?_⟩
  · simp only [FreeRegion,MmapEntry.clampedEnd]
    simp
    omega
  · have map : pc.mbi.mmap_addr = 0x10100#32 := by decide +kernel
    simp only [Boot.Reserved,UsedRegion,map]
    simp [pc,sizeof_multiboot_info,PAGE_SIZE]
    omega

theorem pc_zero_used {s : Frames} (ended : pc.init 3 = some s) : is_used s 0 = true := by
  by_contra unused
  exact ((init_free_iff ended 0).mp (by simpa using unused)).2 (.inl (by decide))

theorem init_frees_only_usable_pc : ∃ s, pc.init 3 = some s ∧ is_used s 1 = false ∧
    Usable pc 1 ∧ ¬ Shares 1 0 4096 ∧ ¬ Shares 1 0x100000 0x140000 := by
  obtain ⟨s,ended⟩ := pc_init
  have free := pc_low_free ended (f := 1) (by decide) (by decide)
  obtain ⟨usable,zero,image,_⟩ := init_frees_only_usable pc_loaderData ended free
  exact ⟨s,ended,free,usable,zero,image⟩

/-! ### No usable memory is lost

The loop frees every whole frame of an entry, except when the entry ends exactly at
4 GiB: its end is then cut to 0, and nothing is freed. The frame is lost unless another
entry frees it. That may be one that has nothing to do with it: the start of an entry in
the last page is rounded up to 0. -/

/-- A non-empty range is reserved only where it has bytes. -/
theorem usedRegion_shares {f : Nat} {a b : Word} (nonempty : a.toNat < b.toNat) (region : UsedRegion a b f) :
    Shares f a.toNat b.toNat := by
  obtain ⟨first,last⟩ := region
  have bound := b.isLt
  exact ⟨max a.toNat (f*4096),by omega,by omega,by omega,by omega⟩

/-- The start of the entry is rounded up to 0. -/
def MmapEntry.RoundedToZero (entry : MmapEntry) : Prop := 0xFFFFF000 < entry.addr.toNat ∧ entry.addr.toNat < 2^32

/-- The frames that the loop body frees for a type-1 entry, up to the last page. -/
theorem frees_iff {entry : MmapEntry} {f : Nat} (usable : entry.type = 1#32)
    (noOverflow : entry.addr.toNat+entry.len.toNat < 2^64) (low : f < 0xFFFFF) :
    Frees entry f ↔ entry.addr.toNat+entry.len.toNat ≠ 2^32 ∧
      (Inside f entry.addr.toNat (entry.addr.toNat+entry.len.toNat) ∨ entry.RoundedToZero) := by
  have below : entry.addr < 0x100000000#64 ↔ entry.addr.toNat < 2^32 := BitVec.lt_def
  rw [Frees,below,FreeRegion,clampedEnd_toNat noOverflow,BitVec.toNat_setWidth,Inside,MmapEntry.RoundedToZero]
  simp only [usable,true_and]
  constructor
  · rintro ⟨small,first,last⟩
    rw [Nat.mod_eq_of_lt small] at first
    split at last <;> omega
  · rintro ⟨notEdge,inside⟩
    have small : entry.addr.toNat < 2^32 := by omega
    rw [Nat.mod_eq_of_lt small]
    split <;> omega

/-- A frame that should be free: it lies inside a type-1 entry and shares no byte with
    what is reserved. -/
structure Spare (b : Boot) (f : Nat) : Prop where
  low : f < 0xFFFFF
  inside : ∃ entry, b.Entry entry ∧ entry.type = 1#32 ∧
    Inside f entry.addr.toNat (entry.addr.toNat+entry.len.toNat)
  notZero : ¬ Shares f 0 4096
  notImage : ¬ Shares f b.kernel_physical_start.toNat b.kernel_physical_end.toNat
  notInfo : ¬ Shares f b.multiboot_info_addr.toNat (b.multiboot_info_addr.toNat+52)
  notMap : ¬ Shares f b.mbi.mmap_addr.toNat (b.mbi.mmap_addr.toNat+b.mbi.mmap_length.toNat)

theorem spare_unreserved {b : Boot} {f : Nat} (spare : Spare b f)
    (image : b.kernel_physical_start.toNat < b.kernel_physical_end.toNat) : ¬ b.Reserved f := by
  rintro (zero | kernel | info | ⟨_,map⟩)
  · exact spare.notZero (usedRegion_shares (by decide) zero)
  · exact spare.notImage (usedRegion_shares image kernel)
  · -- A structure that reached over the end of memory would not be reserved at all.
    by_cases wraps : 2^32 ≤ b.multiboot_info_addr.toNat+52
    · obtain ⟨first,last⟩ := info
      rw [sizeof_multiboot_info,BitVec.toNat_add,BitVec.toNat_ofNat] at last
      omega
    · have exact' : (b.multiboot_info_addr+sizeof_multiboot_info).toNat = b.multiboot_info_addr.toNat+52 := by
        rw [sizeof_multiboot_info,BitVec.toNat_add,BitVec.toNat_ofNat]
        omega
      have shares := usedRegion_shares (by rw [exact']; omega) info
      rw [exact'] at shares
      exact spare.notInfo shares
  · -- The walk has read an entry, so the map does not reach over the end of memory.
    obtain ⟨_,⟨a,visits,_⟩,_⟩ := spare.inside
    have nonempty : b.mbi.mmap_addr.toNat < (b.mbi.mmap_addr+b.mbi.mmap_length).toNat :=
      BitVec.lt_def.mp ((visits_iff ..).mp visits).1
    have shares := usedRegion_shares nonempty map
    have top : (b.mbi.mmap_addr+b.mbi.mmap_length).toNat ≤ b.mbi.mmap_addr.toNat+b.mbi.mmap_length.toNat := by
      rw [BitVec.toNat_add]
      exact Nat.mod_le _ _
    obtain ⟨byte,first,last,rest⟩ := shares
    exact spare.notMap ⟨byte,first,by omega,rest⟩

/-- A frame that should be free is free after `pfa_init` exactly when a type-1 entry that
    does not end at 4 GiB contains it, or has its start rounded up to 0. -/
theorem init_frees_usable {b : Boot} {fuel : Nat} {s : Frames} (ended : b.init fuel = some s) (hasMap : b.HasMap)
    (image : b.kernel_physical_start.toNat < b.kernel_physical_end.toNat)
    (noOverflow : ∀ entry, b.Entry entry → entry.type = 1#32 → entry.addr.toNat+entry.len.toNat < 2^64) {f : Nat}
    (spare : Spare b f) :
    is_used s f = false ↔ ∃ entry, b.Entry entry ∧ entry.type = 1#32 ∧ entry.addr.toNat+entry.len.toNat ≠ 2^32 ∧
      (Inside f entry.addr.toNat (entry.addr.toNat+entry.len.toNat) ∨ entry.RoundedToZero) := by
  rw [init_free_iff ended f]
  constructor
  · rintro ⟨⟨_,entry,isEntry,frees⟩ | ⟨noMap,_⟩,_⟩
    · exact ⟨entry,isEntry,frees.1,(frees_iff frees.1 (noOverflow entry isEntry frees.1) spare.low).mp frees⟩
    · exact absurd hasMap noMap
  · rintro ⟨entry,isEntry,usable,frees⟩
    exact ⟨.inl ⟨hasMap,entry,isEntry,(frees_iff usable (noOverflow entry isEntry usable) spare.low).mpr frees⟩,
      spare_unreserved spare image⟩

theorem init_frees_usable_pc : ∃ s, pc.init 3 = some s ∧ Spare pc 1 ∧ is_used s 1 = false := by
  obtain ⟨s,ended⟩ := pc_init
  have map : pc.mbi.mmap_addr = 0x10100#32 ∧ pc.mbi.mmap_length = 48#32 := by decide +kernel
  have isEntry := (pc_entries ⟨20#32,0#64,0x9FC00#64,1#32⟩).mpr (.inl rfl)
  have inside : Inside 1 0 0x9FC00 := by
    simp only [Inside]
    omega
  have apart : ∀ start stop, 8192 ≤ start → ¬ Shares 1 start stop := by
    rintro start stop high ⟨byte,_,_,_,_⟩
    omega
  have spare : Spare pc 1 := by
    refine ⟨by decide,⟨_,isEntry,rfl,inside⟩,?_,apart _ _ (by decide),apart _ _ (by decide),?_⟩
    · rintro ⟨byte,_,_,_,_⟩
      omega
    · rw [map.1]
      exact apart _ _ (by decide)
  exact ⟨s,ended,spare,(init_frees_usable ended (by decide +kernel) (by decide) pc_loaderData.noOverflow spare).mpr
    ⟨_,isEntry,rfl,by decide,.inl inside⟩⟩

/-- A machine with memory from 1 MiB up to exactly 4 GiB. -/
def edgeMemory : Memory :=
  [(0x10000#32,0x40#32),(0x1002C#32,24#32),(0x10030#32,0x10100#32),(0x10100#32,20#32),(0x10104#32,0x100000#32),
    (0x1010C#32,0xFFF00000#32),(0x10114#32,1#32)].foldl (fun m write => write32 m write.1 write.2) (fun _ => 0#8)

def edge : Boot where
  mem := edgeMemory
  multiboot_info_addr := 0x10000#32
  kernel_physical_start := 0x100000#32
  kernel_physical_end := 0x140000#32

/-- There no memory is freed: not frame 0x200, which lies inside the only entry. -/
theorem edge_frees_nothing : ∃ s, edge.init 2 = some s ∧ edge.HasMap ∧
    (∀ entry, edge.Entry entry ↔ entry = ⟨20#32,0x100000#64,0xFFF00000#64,1#32⟩) ∧ Spare edge 0x200 ∧
    is_used s 0x200 = true := by
  obtain ⟨s,ended⟩ : ∃ s, edge.init 2 = some s := Option.isSome_iff_exists.mp (by decide +kernel)
  have map : edge.mbi.mmap_addr = 0x10100#32 ∧ edge.mbi.mmap_length = 24#32 := by decide +kernel
  have read : multiboot_mmap_entry edge.mem 0x10100#32 = ⟨20#32,0x100000#64,0xFFF00000#64,1#32⟩ := by decide +kernel
  have hasMap : edge.HasMap := by decide +kernel
  have visits : ∀ a, Visits edge.mem (edge.mbi.mmap_addr+edge.mbi.mmap_length) edge.mbi.mmap_addr a ↔ a = 0x10100#32 := by
    intro a
    rw [map.1,map.2,visits_iff,read,visits_iff]
    simp
  have below : ∀ start stop, stop ≤ 0x200000 → ¬ Shares 0x200 start stop := by
    rintro start stop high ⟨byte,_,_,_,_⟩
    omega
  have entries : ∀ entry, edge.Entry entry ↔ entry = ⟨20#32,0x100000#64,0xFFF00000#64,1#32⟩ := by
    intro entry
    simp only [Boot.Entry,visits,exists_eq_left,read]
  have spare : Spare edge 0x200 := by
    refine ⟨by decide,⟨_,(entries _).mpr rfl,rfl,by decide,by decide⟩,below _ _ (by decide),below _ _ (by decide),
      below _ _ (by decide),?_⟩
    rw [map.1,map.2]
    exact below _ _ (by decide)
  refine ⟨s,ended,hasMap,entries,spare,?_⟩
  by_contra unused
  obtain ⟨⟨_,entry,isEntry,_,_,_,last⟩ | ⟨noMap,_⟩,_⟩ := (init_free_iff ended 0x200).mp (by simpa using unused)
  · rw [(entries entry).mp isEntry] at last
    simp [MmapEntry.clampedEnd] at last
  · exact noMap hasMap

/-! ### The walk ends

The stride from one entry to the next is read from memory, and it may be zero or
lead over the end of memory back to lower addresses. -/

/-- The address that follows the entry at `a`. -/
def stride (m : Memory) (a : Word) : Word := a+((multiboot_mmap_entry m a).size+4#32)

section Walk
variable {m : Memory} {mmap_end curr : Word}

/-- The entries that the walk reads are those it comes to before it leaves the map. -/
theorem visits_iterate (a : Word) :
    Visits m mmap_end curr a ↔ ∃ n, (stride m)^[n] curr = a ∧ ∀ k ≤ n, (stride m)^[k] curr < mmap_end := by
  constructor
  · intro visits
    induction visits with
    | here inside =>
      refine ⟨0,rfl,fun k least => ?_⟩
      rw [Nat.le_zero.mp least]
      exact inside
    | @next curr a inside _ ih =>
      obtain ⟨n,reached,before⟩ := ih
      refine ⟨n+1,reached,fun k least => ?_⟩
      cases k with
      | zero => exact inside
      | succ k => exact before k (by omega)
  · rintro ⟨n,rfl,before⟩
    induction n generalizing curr with
    | zero => exact .here (before 0 (le_refl _))
    | succ n ih => exact .next (before 0 (by omega)) (ih (fun k least => before (k+1) (by omega)))

/-- The walk ends when it leaves the map. -/
theorem mmap_walk_ends (s : Frames) :
    (∃ fuel t, mmap_walk m mmap_end fuel curr s = some t) ↔ ∃ n, ¬ (stride m)^[n] curr < mmap_end := by
  constructor
  · rintro ⟨fuel,t,ended⟩
    induction fuel generalizing curr s with
    | zero => cases ended
    | succ fuel ih =>
      rw [mmap_walk] at ended
      split at ended
      · obtain ⟨n,outside⟩ := ih _ ended
        exact ⟨n+1,outside⟩
      · exact ⟨0,by assumption⟩
  · rintro ⟨n,outside⟩
    induction n generalizing curr s with
    | zero => exact ⟨1,s,if_neg outside⟩
    | succ n ih =>
      by_cases inside : curr < mmap_end
      · obtain ⟨fuel,t,ended⟩ := ih (free_entry s (multiboot_mmap_entry m curr)) outside
        exact ⟨fuel+1,t,by rw [mmap_walk,if_pos inside]; exact ended⟩
      · exact ⟨1,s,if_neg inside⟩

/-- The entry after one that is read is read too, if it is in the map. -/
theorem visits_next {a : Word} (visits : Visits m mmap_end curr a) (inside : stride m a < mmap_end) :
    Visits m mmap_end curr (stride m a) := by
  induction visits with
  | here first => exact .next first (.here inside)
  | next first _ ih => exact .next first (ih inside)

/-- The size of the entry leads on to a higher address, without wrapping. -/
def Advances (m : Memory) (a : Word) : Prop :=
  0 < ((multiboot_mmap_entry m a).size+4#32).toNat ∧ a.toNat+((multiboot_mmap_entry m a).size+4#32).toNat < 2^32

theorem advances_lt {a : Word} (advances : Advances m a) : a.toNat < (stride m a).toNat := by
  obtain ⟨forward,noWrap⟩ := advances
  rw [stride,BitVec.toNat_add,Nat.mod_eq_of_lt noWrap]
  omega

/-- Every step leaves less of memory to go through. -/
theorem advances_ends (advances : ∀ a, Visits m mmap_end curr a → Advances m a) (s : Frames) :
    ∃ fuel t, mmap_walk m mmap_end fuel curr s = some t := by
  induction left : 2^32-curr.toNat using Nat.strong_induction_on generalizing curr s with
  | _ left ih =>
    by_cases inside : curr < mmap_end
    · have higher := advances_lt (advances curr (.here inside))
      have bound := curr.isLt
      obtain ⟨fuel,t,ended⟩ := ih (2^32-(stride m curr).toNat) (by omega)
        (fun a later => advances a (.next inside later)) (free_entry s (multiboot_mmap_entry m curr)) rfl
      exact ⟨fuel+1,t,by rw [mmap_walk,if_pos inside]; exact ended⟩
    · exact ⟨1,s,if_neg inside⟩

theorem advances_above (advances : ∀ a, Visits m mmap_end curr a → Advances m a) {a : Word}
    (visits : Visits m mmap_end curr a) : curr.toNat ≤ a.toNat := by
  induction visits with
  | here => exact le_refl _
  | @next curr a inside later ih =>
    have higher := advances_lt (advances curr (.here inside))
    have above := ih (fun a more => advances a (.next inside more))
    change (stride m curr).toNat ≤ a.toNat at above
    omega

/-- From an entry that leads to itself there is no way on. -/
theorem stuck_stays {a : Word} (visits : Visits m mmap_end curr a) (stuck : stride m a = a) (s : Frames) :
    ¬ ∃ fuel t, mmap_walk m mmap_end fuel curr s = some t := by
  obtain ⟨n,rfl,before⟩ := (visits_iterate a).mp visits
  rw [mmap_walk_ends]
  rintro ⟨k,outside⟩
  rcases Nat.le_total k n with early | late
  · exact outside (before k early)
  · obtain ⟨more,rfl⟩ := Nat.exists_eq_add_of_le late
    rw [Nat.add_comm,Function.iterate_add_apply,Function.iterate_fixed stuck] at outside
    exact outside (before n (le_refl n))

end Walk

/-- The walk ends, and the entries it reads start inside the map. -/
def WalkEnds (m : Memory) (mmap_addr mmap_length : Word) (s : Frames) : Prop :=
  (∃ fuel t, mmap_walk m (mmap_addr+mmap_length) fuel mmap_addr s = some t) ∧
    ∀ a, Visits m (mmap_addr+mmap_length) mmap_addr a →
      mmap_addr.toNat ≤ a.toNat ∧ a.toNat < mmap_addr.toNat+mmap_length.toNat

/-- The walk ends and stays inside the map if the size of each entry that it reads leads on
    to a higher address, without wrapping. It does not if one of them has a stride of zero or
    leads below the map. -/
theorem mmap_walk_terminates (m : Memory) (mmap_addr mmap_length : Word) (s : Frames) :
    ((∀ a, Visits m (mmap_addr+mmap_length) mmap_addr a → Advances m a) → WalkEnds m mmap_addr mmap_length s) ∧
      ∀ a, Visits m (mmap_addr+mmap_length) mmap_addr a →
        (multiboot_mmap_entry m a).size+4#32 = 0#32 ∨ a+((multiboot_mmap_entry m a).size+4#32) < mmap_addr →
        ¬ WalkEnds m mmap_addr mmap_length s := by
  constructor
  · intro advances
    refine ⟨advances_ends advances s,fun a visits => ⟨advances_above advances visits,?_⟩⟩
    have inside := BitVec.lt_def.mp (visits_inside visits)
    have top : (mmap_addr+mmap_length).toNat ≤ mmap_addr.toNat+mmap_length.toNat := by
      rw [BitVec.toNat_add]
      exact Nat.mod_le _ _
    omega
  · rintro a visits (stuck | below) ⟨ends,inside⟩
    · exact stuck_stays visits (by rw [stride,stuck,BitVec.add_zero]) s ends
    · have first := ((visits_iff ..).mp visits).1
      have next := (inside _ (visits_next visits (BitVec.lt_trans below first))).1
      exact absurd (BitVec.lt_def.mp below) (by rw [stride] at next; omega)

theorem mmap_walk_terminates_pc : ∀ s, WalkEnds pc.mem pc.mbi.mmap_addr pc.mbi.mmap_length s := by
  intro s
  refine (mmap_walk_terminates _ _ _ s).1 (fun a visits => ?_)
  have size : (multiboot_mmap_entry pc.mem a).size = 20#32 := by
    rcases (pc_entries _).mp ⟨a,visits,rfl⟩ with first | second
    · rw [first]
    · rw [second]
  have stop : pc.mbi.mmap_addr+pc.mbi.mmap_length = 0x10130#32 := by decide +kernel
  have high := visits_inside visits
  rw [stop,BitVec.lt_def] at high
  rw [Advances,size]
  simp only [BitVec.toNat_ofNat,BitVec.toNat_add] at high ⊢
  omega

/-- A memory map at 0x10100 of one entry, which says that it has `size` bytes. -/
def sizedMemory (size : Word) : Memory :=
  [(0x10000#32,0x40#32),(0x1002C#32,24#32),(0x10030#32,0x10100#32),(0x10100#32,size)].foldl
    (fun m write => write32 m write.1 write.2) (fun _ => 0#8)

def sized (size : Word) : Boot where
  mem := sizedMemory size
  multiboot_info_addr := 0x10000#32
  kernel_physical_start := 0x100000#32
  kernel_physical_end := 0x140000#32

/-- With a size of 0xFFFFFFFC the walk never ends, and with 0xFFFEFEFC it goes on
    with an entry at address 0. -/
theorem mmap_walk_endless : (∀ fuel, (sized 0xFFFFFFFC#32).init fuel = none) ∧
    (sized 0xFFFEFEFC#32).mbi.mmap_addr = 0x10100#32 ∧ (sized 0xFFFEFEFC#32).mbi.mmap_length = 24#32 ∧
    Visits (sized 0xFFFEFEFC#32).mem (0x10100#32+24#32) 0x10100#32 0#32 := by
  refine ⟨?_,by decide +kernel,by decide +kernel,?_⟩
  · intro fuel
    have read : multiboot_mmap_entry (sized 0xFFFFFFFC#32).mem 0x10100#32 = ⟨0xFFFFFFFC#32,0#64,0#64,0#32⟩ := by
      decide +kernel
    have map : (sized 0xFFFFFFFC#32).HasMap ∧ (sized 0xFFFFFFFC#32).mbi.mmap_addr = 0x10100#32 ∧
        (sized 0xFFFFFFFC#32).mbi.mmap_length = 24#32 := by decide +kernel
    have stays : ∀ s, mmap_walk (sized 0xFFFFFFFC#32).mem (0x10100#32+24#32) fuel 0x10100#32 s = none := by
      induction fuel with
      | zero => exact fun s => rfl
      | succ fuel ih =>
        intro s
        rw [mmap_walk,if_pos (by decide),read]
        exact ih _
    obtain ⟨hasMap,start,length⟩ := map
    change (if (sized 0xFFFFFFFC#32).HasMap then mmap_walk (sized 0xFFFFFFFC#32).mem
        ((sized 0xFFFFFFFC#32).mbi.mmap_addr+(sized 0xFFFFFFFC#32).mbi.mmap_length) fuel
        (sized 0xFFFFFFFC#32).mbi.mmap_addr all_used else _).map _ = none
    rw [if_pos hasMap,start,length,stays]
    rfl
  · have size : (multiboot_mmap_entry (sized 0xFFFEFEFC#32).mem 0x10100#32).size = 0xFFFEFEFC#32 := by decide +kernel
    refine .next (by decide) ?_
    rw [size]
    exact .here (by decide)

/-! ### Rounding to frames -/

/-- `pfa_reserve` marks the frames with a byte in the range and changes no other. -/
def ReservesExactly (start stop : Word) : Prop :=
  ∀ s f, is_used (pfa_reserve s start stop) f = true ↔ Shares f start.toNat stop.toNat ∨ is_used s f = true

/-- `mark_region_free` frees the frames inside the range and changes no other. -/
def FreesExactly (start stop : Word) : Prop :=
  ∀ s f, is_used (mark_region_free s start stop) f = true ↔ ¬ Inside f start.toNat stop.toNat ∧ is_used s f = true

theorem reserves_exactly {start stop : Word} (nonempty : start.toNat < stop.toNat) (low : stop.toNat ≤ 0xFFFFF000) :
    ReservesExactly start stop := by
  intro s f
  have region : UsedRegion start stop f ↔ Shares f start.toNat stop.toNat :=
    ⟨usedRegion_shares nonempty,shares_usedRegion low⟩
  simp [pfa_reserve,region]

theorem frees_exactly {start stop : Word} (low : start.toNat ≤ 0xFFFFF000) : FreesExactly start stop := by
  intro s f
  have region : FreeRegion start stop f ↔ Inside f start.toNat stop.toNat := by
    simp only [FreeRegion,Inside]
    omega
  simp [region]

/-- An end in the last page is rounded up to 0, and then nothing is reserved. -/
theorem last_page_reserves_nothing {start stop : Word} (nonempty : start.toNat < stop.toNat)
    (high : 0xFFFFF000 < stop.toNat) : ¬ ReservesExactly start stop := by
  intro reserves
  have bound := stop.isLt
  have shares : Shares (start.toNat/4096) start.toNat stop.toNat :=
    ⟨start.toNat,le_refl _,nonempty,by omega,by omega⟩
  have outside : ¬ UsedRegion start stop (start.toNat/4096) := by
    simp only [UsedRegion]
    omega
  have marked := (reserves (mark_free all_used (start.toNat/4096)) (start.toNat/4096)).mpr (.inl shares)
  simp [pfa_reserve,outside] at marked

/-- A start in the last page is rounded up to 0, and then the first frame is freed. -/
theorem last_page_frees_all {start stop : Word} (nonempty : start.toNat < stop.toNat) (high : 0xFFFFF000 < start.toNat) :
    ¬ FreesExactly start stop := by
  intro frees
  have bound := stop.isLt
  have outside : ¬ Inside 0 start.toNat stop.toNat := by
    simp only [Inside]
    omega
  have inside : FreeRegion start stop 0 := by
    simp only [FreeRegion]
    omega
  have kept := (frees all_used 0).mpr ⟨outside,is_used_all_used 0⟩
  simp [inside] at kept

/-- The rounding of `pfa_reserve` is exact when the range does not end inside the last
    page, and that of `mark_region_free` when it does not start inside it. -/
theorem region_rounding {start stop : Word} (nonempty : start.toNat < stop.toNat) :
    (ReservesExactly start stop ↔ stop.toNat ≤ 0xFFFFF000) ∧ (FreesExactly start stop ↔ start.toNat ≤ 0xFFFFF000) := by
  refine ⟨⟨fun reserves => ?_,reserves_exactly nonempty⟩,⟨fun frees => ?_,frees_exactly⟩⟩
  · by_contra high
    exact last_page_reserves_nothing nonempty (Nat.lt_of_not_le high) reserves
  · by_contra high
    exact last_page_frees_all nonempty (Nat.lt_of_not_le high) frees

theorem region_rounding_image : ReservesExactly 0x100010#32 0x13F001#32 ∧ FreesExactly 0x100010#32 0x13F001#32 := by
  obtain ⟨reserves,frees⟩ := region_rounding (show (0x100010#32 : Word).toNat < (0x13F001#32 : Word).toNat by decide)
  exact ⟨reserves.mpr (by decide),frees.mpr (by decide)⟩

/-- One byte of the last page makes a reservation void, and a range inside the last
    page frees frame 1. -/
theorem last_page_rounding :
    Shares 0xFFFFE 0xFFFFE000 0xFFFFF001 ∧
      is_used (pfa_reserve (mark_free all_used 0xFFFFE) 0xFFFFE000#32 0xFFFFF001#32) 0xFFFFE = false ∧
      ¬ Inside 1 0xFFFFF001 0xFFFFFFFF ∧ is_used all_used 1 = true ∧
      is_used (mark_region_free all_used 0xFFFFF001#32 0xFFFFFFFF#32) 1 = false := by
  have reserved : ¬ UsedRegion 0xFFFFE000#32 0xFFFFF001#32 0xFFFFE := by decide
  have freed : FreeRegion 0xFFFFF001#32 0xFFFFFFFF#32 1 := by decide
  refine ⟨⟨0xFFFFE000,by decide,by decide,by decide,by decide⟩,by simp [pfa_reserve,reserved],?_,is_used_all_used 1,
    by simp [freed]⟩
  simp only [Inside]
  omega

end SoKernel.PfaInit
