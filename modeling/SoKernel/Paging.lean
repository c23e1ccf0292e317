import SoKernel.Pages
import SoKernel.Pfa

/-!
The two-level page tables of `paging4k.c`, as the processor reads them and as
the kernel edits them. `translate` is the processor's walk: 4 MiB entries and
tables of 4 KiB entries, with the permissions of both levels required.
-/
namespace SoKernel.Paging
open SoKernel.Words SoKernel.Pages SoKernel.Pfa
set_option linter.unusedSimpArgs false

def PTE_PRESENT : Word := 0x01#32
def PTE_RW : Word := 0x02#32
def PTE_USER : Word := 0x04#32
def PDE_PRESENT : Word := 0x01#32
def PDE_RW : Word := 0x02#32
def PDE_USER : Word := 0x04#32
def PDE_PS : Word := 0x80#32

/-! ### The processor -/

/-- Where a virtual address leads and with which permissions. -/
structure Translation where
  phys : Word
  writable : Bool
  user : Bool
deriving DecidableEq

/-- The processor's walk through a directory. -/
def translate (m : Memory) (dir virt : Word) : Option Translation :=
  let pde := entry m dir (virt >>> 22).toNat
  if pde &&& PDE_PRESENT = 0#32 then none
  else if pde &&& PDE_PS ≠ 0#32 then
    some
      { phys := (pde &&& 0xFFC00000#32) ||| (virt &&& 0x003FFFFF#32)
        writable := pde &&& PDE_RW ≠ 0#32
        user := pde &&& PDE_USER ≠ 0#32 }
  else
    let pte := entry m (pde &&& 0xFFFFF000#32) ((virt >>> 12) &&& 0x3FF#32).toNat
    if pte &&& PTE_PRESENT = 0#32 then none
    else
      some
        { phys := (pte &&& 0xFFFFF000#32) ||| (virt &&& 0xFFF#32)
          writable := pde &&& PDE_RW ≠ 0#32 && pte &&& PTE_RW ≠ 0#32
          user := pde &&& PDE_USER ≠ 0#32 && pte &&& PTE_USER ≠ 0#32 }

/-! ### The kernel -/

/-- How a pointer of the kernel reaches physical memory. -/
abbrev Access := Memory → Word → Word
/-- Kernel pointers are physical addresses. -/
def physical : Access := fun _ a => a
/-- Kernel pointers go through the directory that is loaded. -/
def paged (cr3 : Word) : Access := fun m a => ((translate m cr3 a).map Translation.phys).getD a

def load8 (x : Access) (m : Memory) (a : Word) : Byte := m (x m a)
def load32 (x : Access) (m : Memory) (a : Word) : Word := read32 m (x m a)
def store8 (x : Access) (m : Memory) (a : Word) (v : Byte) : Memory := write8 m (x m a) v
def store32 (x : Access) (m : Memory) (a v : Word) : Memory := write32 m (x m a) v

def memset (x : Access) (m : Memory) (s : Word) (c : Byte) (n : Nat) : Memory :=
  n.fold (fun i _ m => store8 x m (s+BitVec.ofNat 32 i) c) m

def memcpy (x : Access) (m : Memory) (dest src : Word) (n : Nat) : Memory :=
  n.fold (fun i _ m => store8 x m (dest+BitVec.ofNat 32 i) (load8 x m (src+BitVec.ofNat 32 i))) m

/-- Physical memory and the allocator of its frames. -/
structure Phys where
  frames : Frames
  mem : Memory

/-- Returns the new directory, or 0 when there is no frame for it. -/
def paging_create_kernel_dir (x : Access) (p : Phys) : Word × Phys :=
  let frame := pfa_alloc p.frames
  if frame.1 = 0#32 then (0#32,{ p with frames := frame.2 })
  else
    let dir := frame.1
    (dir,
      { frames := frame.2
        mem := Nat.fold 1024 (fun i _ m =>
          store32 x m (slot dir i) (BitVec.ofNat 32 i <<< 22 ||| PDE_PRESENT ||| PDE_RW ||| PDE_PS)) p.mem })

/-- A new table goes into the directory; a user page needs the user bit there. -/
def set_pde (x : Access) (m : Memory) (dir : Word) (pde_idx : Nat) (pt_frame flags : Word) : Memory :=
  let m := store32 x m (slot dir pde_idx) (pt_frame ||| PDE_PRESENT ||| PDE_RW)
  if flags &&& PTE_USER ≠ 0#32 then
    store32 x m (slot dir pde_idx) (load32 x m (slot dir pde_idx) ||| PDE_USER)
  else m

/-- The last statement of `paging_map_4k`. -/
def set_pte (x : Access) (m : Memory) (pt : Word) (pte_idx : Nat) (phys flags : Word) : Memory :=
  store32 x m (slot pt pte_idx) ((phys &&& 0xFFFFF000#32) ||| flags)

def paging_map_4k (x : Access) (p : Phys) (dir virt phys flags : Word) : Phys :=
  let pde_idx := (virt >>> 22).toNat
  let pte_idx := ((virt >>> 12) &&& 0x3FF#32).toNat
  let pde := load32 x p.mem (slot dir pde_idx)
  if pde &&& PDE_PS ≠ 0#32 then
    -- Split a 4 MiB page into a table of 4 KiB pages with the same meaning.
    let base := pde &&& 0xFFC00000#32
    let pt_frame := pfa_alloc p.frames
    if pt_frame.1 = 0#32 then { p with frames := pt_frame.2 }
    else
      let pt := pt_frame.1
      let m := Nat.fold 1024 (fun i _ m =>
        store32 x m (slot pt i) ((base+BitVec.ofNat 32 (i*PAGE_SIZE)) ||| PTE_PRESENT ||| PTE_RW)) p.mem
      let m := set_pde x m dir pde_idx pt flags
      { frames := pt_frame.2, mem := set_pte x m pt pte_idx phys flags }
  else if pde &&& PDE_PRESENT = 0#32 then
    let pt_frame := pfa_alloc p.frames
    if pt_frame.1 = 0#32 then { p with frames := pt_frame.2 }
    else
      let pt := pt_frame.1
      let m := memset x p.mem pt 0#8 PAGE_SIZE
      let m := set_pde x m dir pde_idx pt flags
      { frames := pt_frame.2, mem := set_pte x m pt pte_idx phys flags }
  else
    let pt := pde &&& 0xFFFFF000#32
    let m :=
      if flags &&& PTE_USER ≠ 0#32 ∧ pde &&& PDE_USER = 0#32 then
        store32 x p.mem (slot dir pde_idx) (pde ||| PDE_USER)
      else p.mem
    { p with mem := set_pte x m pt pte_idx phys flags }

/-! ### Frames

What both functions take from the allocator does not depend on how kernel
pointers reach memory. -/

@[simp] theorem create_dir (x : Access) (p : Phys) : (paging_create_kernel_dir x p).1 = (pfa_alloc p.frames).1 := by
  rw [paging_create_kernel_dir]
  by_cases failed : (pfa_alloc p.frames).1 = 0#32
  · rw [if_pos failed,failed]
  · rw [if_neg failed]

@[simp] theorem create_frames (x : Access) (p : Phys) :
    (paging_create_kernel_dir x p).2.frames = (pfa_alloc p.frames).2 := by
  rw [paging_create_kernel_dir]
  split <;> rfl

theorem map_frames (x : Access) (p : Phys) (dir virt phys flags : Word) :
    (paging_map_4k x p dir virt phys flags).frames = p.frames ∨
      (paging_map_4k x p dir virt phys flags).frames = (pfa_alloc p.frames).2 := by
  simp only [paging_map_4k]
  split
  · split <;> exact .inr rfl
  · split
    · split <;> exact .inr rfl
    · exact .inl rfl

end SoKernel.Paging
