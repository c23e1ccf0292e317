import SoKernel.Segmentation
import SoKernel.Loading
import SoKernel.Kmain
import SoKernel.Processor

/-!
`gdt.c`, `tss.c` and `idt.c`: the tables through which the processor finds the handlers
and the kernel stack, as the kernel writes them to memory. Every vector leads where it
should, from user mode and from the kernel, and user code gets through one gate only.
-/
namespace SoKernel.Descriptors
open SoKernel.Words SoKernel.Pages SoKernel.Paging SoKernel.Loading SoKernel.Segmentation SoKernel.Processor
set_option linter.unusedSimpArgs false

/-! ### Where the tables are -/

def TSS_SIZE : Nat := 104
def IDT_NUM_ENTRIES : Nat := 256

/-- The addresses of `gdt`, `idt` and `tss`. -/
structure Layout where
  gdt : Word
  idt : Word
  tss : Word
  gdt_fits : gdt.toNat+48 ≤ 2^32
  idt_fits : idt.toNat+8*IDT_NUM_ENTRIES ≤ 2^32
  tss_fits : tss.toNat+TSS_SIZE ≤ 2^32
  gdt_idt : Beside gdt 48 idt (8*IDT_NUM_ENTRIES)
  gdt_tss : Beside gdt 48 tss TSS_SIZE
  idt_tss : Beside idt (8*IDT_NUM_ENTRIES) tss TSS_SIZE

/-- The addresses of the entry stubs. -/
structure Handlers where
  interrupt_handler : Vector → Word
  syscall_handler_128 : Word

def write16 (m : Memory) (a : Word) (v : BitVec 16) : Memory :=
  write8 (write8 m a (v.extractLsb' 0 8)) (a+1#32) (v.extractLsb' 8 8)

/-! ### tss.c -/

/-- The fields `esp0`, `ss0` and `iomap_base` are at 4, 8 and 102. -/
def tss_init (tss kernel_stack_top kernel_data_segment : Word) (m : Memory) : Memory :=
  let m := memset physical m tss 0#8 TSS_SIZE
  let m := write32 m (tss+8#32) kernel_data_segment
  let m := write32 m (tss+4#32) kernel_stack_top
  write16 m (tss+102#32) (BitVec.ofNat 16 TSS_SIZE)

def tss_set_kernel_stack (tss stack_top : Word) (m : Memory) : Memory := write32 m (tss+4#32) stack_top

def tss_get_limit : Word := BitVec.ofNat 32 TSS_SIZE-1#32

/-! ### gdt.c -/

def gdt_set_gate (gdt : Word) (idx : Nat) (base limit : Word) (access gran : Byte) (m : Memory) : Memory :=
  let e := gdt+BitVec.ofNat 32 (8*idx)
  let m := write16 m (e+2#32) ((base &&& 0xFFFF#32).setWidth 16)
  let m := write8 m (e+4#32) (((base >>> 16) &&& 0xFF#32).setWidth 8)
  let m := write8 m (e+7#32) (((base >>> 24) &&& 0xFF#32).setWidth 8)
  let m := write16 m e ((limit &&& 0xFFFF#32).setWidth 16)
  let m := write8 m (e+6#32) (((limit >>> 16) &&& 0x0F#32).setWidth 8)
  let m := write8 m (e+6#32) (m (e+6#32) ||| (gran &&& 0xF0#8))
  write8 m (e+5#32) access

/-- What `gdt_init` writes; `gdt_load` puts `gp` into GDTR. -/
def gdt_init (gdt tss : Word) (m : Memory) : Memory × Table :=
  let m := gdt_set_gate gdt 0 0#32 0#32 0#8 0#8 m
  let m := gdt_set_gate gdt 1 0#32 0xFFFFFFFF#32 0x9A#8 0xCF#8 m
  let m := gdt_set_gate gdt 2 0#32 0xFFFFFFFF#32 0x92#8 0xCF#8 m
  let m := gdt_set_gate gdt 3 0#32 0xFFFFFFFF#32 0xFA#8 0xCF#8 m
  let m := gdt_set_gate gdt 4 0#32 0xFFFFFFFF#32 0xF2#8 0xCF#8 m
  let m := gdt_set_gate gdt 5 tss tss_get_limit 0x89#8 0x00#8 m
  (m,⟨gdt,47#32⟩)

/-! ### idt.c -/

def idt_set_entry (idt : Word) (index : Nat) (handler : Word) (sel : BitVec 16) (type_attr : Byte) (m : Memory) : Memory :=
  let e := idt+BitVec.ofNat 32 (8*index)
  let m := write16 m e ((handler &&& 0xFFFF#32).setWidth 16)
  let m := write16 m (e+6#32) (((handler >>> 16) &&& 0xFFFF#32).setWidth 16)
  let m := write16 m (e+2#32) sel
  let m := write8 m (e+4#32) 0#8
  write8 m (e+5#32) type_attr

def idt_install_handlers (idt : Word) (h : Handlers) (m : Memory) : Memory :=
  let attr := 0x8E#8
  let m := (List.finRange 48).foldl (fun m (n : Vector) => idt_set_entry idt n.val (h.interrupt_handler n) 0x08#16 attr m) m
  idt_set_entry idt 0x80 h.syscall_handler_128 0x08#16 0xEE#8 m

/-- What `idt_init` writes; `load_idt` puts `ptr` into IDTR. -/
def idt_init (idt : Word) (h : Handlers) (m : Memory) : Memory × Table :=
  let m := IDT_NUM_ENTRIES.fold (fun i _ m => idt_set_entry idt i 0#32 0#16 0#8 m) m
  (idt_install_handlers idt h m,⟨idt,BitVec.ofNat 32 (8*IDT_NUM_ENTRIES-1)⟩)

/-- What `kmain` does first: `tss_init`, `gdt_init`, `tss_load` and, later, `idt_init`. -/
def set_up (l : Layout) (h : Handlers) (kernel_stack_top : Word) (m : Memory) : Option (Memory × Tables) :=
  let m := tss_init l.tss kernel_stack_top 0x10#32 m
  let (m,gdtr) := gdt_init l.gdt l.tss m
  match ltr m gdtr 0x28#16 with
  | none => none
  | some (m,task) =>
    let (m,idtr) := idt_init l.idt h m
    some (m,⟨gdtr,idtr,0x28#16,task⟩)

/-! ### What is written -/

/-- The descriptor of a segment. -/
def segment (base limit : Word) (access gran : Byte) : Descriptor :=
  base.extractLsb' 24 8 ++ gran.extractLsb' 4 4 ++ limit.extractLsb' 16 4 ++ access ++ base.extractLsb' 0 24 ++
    limit.extractLsb' 0 16

/-- The descriptor of a gate. -/
def gate (handler : Word) (sel : BitVec 16) (type_attr : Byte) : Descriptor :=
  handler.extractLsb' 16 16 ++ type_attr ++ 0#8 ++ sel ++ handler.extractLsb' 0 16

theorem segment_bit (base limit : Word) (access gran : Byte) (i : Nat) :
    (segment base limit access gran).getLsbD i =
      if i < 16 then limit.getLsbD i
      else if i-16 < 24 then base.getLsbD (i-16)
      else if i-16-24 < 8 then access.getLsbD (i-16-24)
      else if i-16-24-8 < 4 then limit.getLsbD (16+(i-16-24-8))
      else if i-16-24-8-4 < 4 then gran.getLsbD (4+(i-16-24-8-4))
      else base.getLsbD (24+(i-16-24-8-4-4)) := by
  simp only [segment,BitVec.getLsbD_append,BitVec.getLsbD_extractLsb']
  split_ifs <;> simp [*]
  intro bit
  have inside := BitVec.lt_of_getLsbD bit
  omega

theorem gdt_set_gate_writes (gdt : Word) (idx : Nat) (base limit : Word) (access gran : Byte) (m : Memory) :
    gdt_set_gate gdt idx base limit access gran m =
      write64 m (gdt+BitVec.ofNat 32 (8*idx)) (segment base limit access gran) := by
  generalize entry : gdt+BitVec.ofNat 32 (8*idx) = e
  simp only [gdt_set_gate,entry]
  refine eq_write64 ?_ ?_
  · intro j inside
    interval_cases j
    all_goals
      refine BitVec.eq_of_getLsbD_eq (fun i below => ?_)
      rw [BitVec.getLsbD_extractLsb',segment_bit]
      simp only [write16,write8,BitVec.add_assoc]
      interval_cases i <;> simp
  · intro b n0 n1 n2 n3 n4 n5 n6 n7
    simp [write16,write8,BitVec.add_assoc,n0,n1,n2,n3,n4,n5,n6,n7]

theorem gate_bit (handler : Word) (sel : BitVec 16) (type_attr : Byte) (i : Nat) :
    (gate handler sel type_attr).getLsbD i =
      if i < 16 then handler.getLsbD i
      else if i-16 < 16 then sel.getLsbD (i-16)
      else if i-16-16 < 8 then false
      else if i-16-16-8 < 8 then type_attr.getLsbD (i-16-16-8)
      else handler.getLsbD (16+(i-16-16-8-8)) := by
  simp only [gate,BitVec.getLsbD_append,BitVec.getLsbD_extractLsb']
  split_ifs <;> simp [*]
  intro bit
  have inside := BitVec.lt_of_getLsbD bit
  omega

theorem idt_set_entry_writes (idt : Word) (index : Nat) (handler : Word) (sel : BitVec 16) (type_attr : Byte) (m : Memory) :
    idt_set_entry idt index handler sel type_attr m =
      write64 m (idt+BitVec.ofNat 32 (8*index)) (gate handler sel type_attr) := by
  generalize entry : idt+BitVec.ofNat 32 (8*index) = e
  simp only [idt_set_entry,entry]
  refine eq_write64 ?_ ?_
  · intro j inside
    interval_cases j
    all_goals
      refine BitVec.eq_of_getLsbD_eq (fun i below => ?_)
      rw [BitVec.getLsbD_extractLsb',gate_bit]
      simp only [write16,write8,BitVec.add_assoc]
      interval_cases i <;> simp
  · intro b n0 n1 n2 n3 n4 n5 n6 n7
    simp [write16,write8,BitVec.add_assoc,n0,n1,n2,n3,n4,n5,n6,n7]

/-! ### What the processor reads -/

theorem gate_offset (handler : Word) (sel : BitVec 16) (type_attr : Byte) :
    Descriptor.offset (gate handler sel type_attr) = handler := by
  refine BitVec.eq_of_getLsbD_eq (fun i below => ?_)
  rw [Descriptor.offset,BitVec.getLsbD_append,BitVec.getLsbD_extractLsb',BitVec.getLsbD_extractLsb',gate_bit,gate_bit]
  by_cases low : i < 16
  · simp [low]
  · simp [low,show i-16 < 16 by omega,show ¬ 48+(i-16) < 16 by omega,show ¬ 48+(i-16)-16 < 16 by omega,
      show ¬ 48+(i-16)-16-16 < 8 by omega,show ¬ 48+(i-16)-16-16-8 < 8 by omega,show 16+(48+(i-16)-16-16-8-8) = i by omega]

theorem gate_selector (handler : Word) (sel : BitVec 16) (type_attr : Byte) :
    Descriptor.selector (gate handler sel type_attr) = sel := by
  refine BitVec.eq_of_getLsbD_eq (fun i below => ?_)
  rw [Descriptor.selector,BitVec.getLsbD_extractLsb',gate_bit]
  simp [below,show ¬ 16+i < 16 by omega]

/-- The type and the attributes of a gate are those of its byte. -/
theorem gate_attributes (handler : Word) (sel : BitVec 16) (type_attr : Byte) {i : Nat} (inside : i < 8) :
    (gate handler sel type_attr).getLsbD (40+i) = type_attr.getLsbD i := by
  rw [gate_bit]
  simp [show ¬ 40+i < 16 by omega,show ¬ 40+i-16 < 16 by omega,show ¬ 40+i-16-16 < 8 by omega,
    show 40+i-16-16-8 = i by omega,inside]

/-- A gate of the table, by its byte of attributes. -/
theorem gate_kind (handler : Word) (sel : BitVec 16) (type_attr : Byte) (isGate : type_attr.extractLsb' 0 5 = 0x0E#5)
    (present : type_attr.getLsbD 7 = true) :
    Descriptor.InterruptGate (gate handler sel type_attr) ∧ Descriptor.Present (gate handler sel type_attr) ∧
      Descriptor.dpl (gate handler sel type_attr) = type_attr.extractLsb' 5 2 := by
  have bits : ∀ i < 5, type_attr.getLsbD i = (0x0E#5).getLsbD i := by
    intro i below
    rw [← isGate,BitVec.getLsbD_extractLsb',decide_eq_true below,Bool.true_and,Nat.zero_add]
  refine ⟨⟨?_,BitVec.eq_of_getLsbD_eq (fun i below => ?_)⟩,?_,BitVec.eq_of_getLsbD_eq (fun i below => ?_)⟩
  · exact (gate_attributes handler sel type_attr (i := 4) (by decide)).trans (bits 4 (by decide))
  · rw [Descriptor.kind,BitVec.getLsbD_extractLsb',gate_attributes _ _ _ (by omega),bits i (by omega),decide_eq_true below,
      Bool.true_and]
    revert i
    decide
  · exact (gate_attributes handler sel type_attr (i := 7) (by decide)).trans present
  · rw [Descriptor.dpl,BitVec.getLsbD_extractLsb',BitVec.getLsbD_extractLsb',show 45+i = 40+(5+i) by omega,
      gate_attributes _ _ _ (by omega)]

theorem segment_attributes (base limit : Word) (access gran : Byte) {i : Nat} (inside : i < 8) :
    (segment base limit access gran).getLsbD (40+i) = access.getLsbD i := by
  rw [segment_bit]
  simp [show ¬ 40+i < 16 by omega,show ¬ 40+i-16 < 24 by omega,show 40+i-16-24 = i by omega,inside]

theorem segment_base (base limit : Word) (access gran : Byte) :
    Descriptor.base (segment base limit access gran) = base := by
  refine BitVec.eq_of_getLsbD_eq (fun i below => ?_)
  rw [Descriptor.base,BitVec.getLsbD_append,BitVec.getLsbD_extractLsb',BitVec.getLsbD_extractLsb',segment_bit,segment_bit]
  by_cases low : i < 24
  · simp [low,show ¬ 16+i < 16 by omega]
  · simp [low,show i-24 < 8 by omega,show ¬ 56+(i-24) < 16 by omega,show ¬ 56+(i-24)-16 < 24 by omega,
      show ¬ 56+(i-24)-16-24 < 8 by omega,show ¬ 56+(i-24)-16-24-8 < 4 by omega,show ¬ 56+(i-24)-16-24-8-4 < 4 by omega,
      show 24+(56+(i-24)-16-24-8-4-4) = i by omega]

theorem segment_limit {limit : Word} (small : limit.toNat < 2^20) (base : Word) (access gran : Byte) :
    Descriptor.limit (segment base limit access gran) = limit := by
  refine BitVec.eq_of_getLsbD_eq (fun i below => ?_)
  rw [Descriptor.limit,BitVec.getLsbD_setWidth,BitVec.getLsbD_append,BitVec.getLsbD_extractLsb',BitVec.getLsbD_extractLsb',
    segment_bit,segment_bit]
  by_cases low : i < 16
  · simp [below,low]
  · by_cases high : i-16 < 4
    · simp [below,low,high,show ¬ 48+(i-16) < 16 by omega,show ¬ 48+(i-16)-16 < 24 by omega,
        show ¬ 48+(i-16)-16-24 < 8 by omega,show 48+(i-16)-16-24-8 = i-16 by omega,show 16+(i-16) = i by omega]
    · have zero : limit.getLsbD i = false :=
        Nat.testBit_lt_two_pow (small.trans_le (Nat.pow_le_pow_right (by decide) (by omega)))
      rw [zero]
      simp [below,low,high]

/-! ### The tables in memory -/

/-- The descriptors of `gdt_init` for the kernel's code and data and the user's. -/
def KERNEL_CODE : Descriptor := segment 0#32 0xFFFFFFFF#32 0x9A#8 0xCF#8
def KERNEL_DATA : Descriptor := segment 0#32 0xFFFFFFFF#32 0x92#8 0xCF#8
def USER_CODE : Descriptor := segment 0#32 0xFFFFFFFF#32 0xFA#8 0xCF#8
def USER_DATA : Descriptor := segment 0#32 0xFFFFFFFF#32 0xF2#8 0xCF#8

/-- The gate of a vector. -/
def gateOf (h : Handlers) (n : Nat) : Descriptor :=
  if inside : n < 48 then gate (h.interrupt_handler ⟨n,inside⟩) 0x08#16 0x8E#8
  else if n = 0x80 then gate h.syscall_handler_128 0x08#16 0xEE#8
  else gate 0#32 0#16 0#8

/-- What the processor has been told. -/
def registers (l : Layout) : Tables := ⟨⟨l.gdt,47#32⟩,⟨l.idt,2047#32⟩,0x28#16,⟨l.tss,103#32⟩⟩

/-- The tables are in memory, with a stack for entries from user mode. -/
structure Installed (l : Layout) (h : Handlers) (esp0 : Word) (m : Memory) : Prop where
  kernel_code : read64 m (l.gdt+BitVec.ofNat 32 (8*1)) = KERNEL_CODE
  kernel_data : read64 m (l.gdt+BitVec.ofNat 32 (8*2)) = KERNEL_DATA
  user_code : read64 m (l.gdt+BitVec.ofNat 32 (8*3)) = USER_CODE
  user_data : read64 m (l.gdt+BitVec.ofNat 32 (8*4)) = USER_DATA
  gates : ∀ n < IDT_NUM_ENTRIES, read64 m (l.idt+BitVec.ofNat 32 (8*n)) = gateOf h n
  esp0 : read32 m (l.tss+BitVec.ofNat 32 4) = esp0
  ss0 : read32 m (l.tss+BitVec.ofNat 32 8) = 0x10#32

/-- The stack of the task segment may be another one. -/
theorem installed_stack {l : Layout} {h : Handlers} {esp0 top : Word} {m m' : Memory} (installed : Installed l h esp0 m)
    (gdt : Agree m' m l.gdt 48) (idt : Agree m' m l.idt (8*IDT_NUM_ENTRIES))
    (esp : read32 m' (l.tss+BitVec.ofNat 32 4) = top) (ss : read32 m' (l.tss+BitVec.ofNat 32 8) = 0x10#32) :
    Installed l h top m' := by
  have gdtFits := l.gdt_fits
  refine ⟨?_,?_,?_,?_,fun n below => ?_,esp,ss⟩
  · rw [agree_read64 gdt gdtFits (by decide),installed.kernel_code]
  · rw [agree_read64 gdt gdtFits (by decide),installed.kernel_data]
  · rw [agree_read64 gdt gdtFits (by decide),installed.user_code]
  · rw [agree_read64 gdt gdtFits (by decide),installed.user_data]
  · rw [agree_read64 idt l.idt_fits (by omega),installed.gates n below]

/-- Memory changes elsewhere. -/
theorem installed_agree {l : Layout} {h : Handlers} {esp0 : Word} {m m' : Memory} (installed : Installed l h esp0 m)
    (gdt : Agree m' m l.gdt 48) (idt : Agree m' m l.idt (8*IDT_NUM_ENTRIES)) (tss : Agree m' m l.tss TSS_SIZE) :
    Installed l h esp0 m' := by
  refine installed_stack installed gdt idt ?_ ?_
  · rw [agree_read32 tss l.tss_fits (by decide),installed.esp0]
  · rw [agree_read32 tss l.tss_fits (by decide),installed.ss0]

/-! ### Writing the tables -/

theorem idt_set_entry_within {idt : Word} (fits : idt.toNat+8*IDT_NUM_ENTRIES ≤ 2^32) {index : Nat}
    (inside : index < IDT_NUM_ENTRIES) (handler : Word) (sel : BitVec 16) (type_attr : Byte) (m : Memory) :
    Within m (idt_set_entry idt index handler sel type_attr m) idt (8*IDT_NUM_ENTRIES) := by
  rw [idt_set_entry_writes]
  exact write64_within fits (by omega)

theorem idt_set_entry_read {idt : Word} (fits : idt.toNat+8*IDT_NUM_ENTRIES ≤ 2^32) {index n : Nat}
    (inside : index < IDT_NUM_ENTRIES) (below : n < IDT_NUM_ENTRIES) (handler : Word) (sel : BitVec 16) (type_attr : Byte)
    (m : Memory) :
    read64 (idt_set_entry idt index handler sel type_attr m) (idt+BitVec.ofNat 32 (8*n)) =
      if index = n then gate handler sel type_attr else read64 m (idt+BitVec.ofNat 32 (8*n)) := by
  rw [idt_set_entry_writes]
  exact read64_table fits inside below

/-- The loop of `idt_init` clears the table. -/
theorem idt_clears {idt : Word} (fits : idt.toNat+8*IDT_NUM_ENTRIES ≤ 2^32) (m : Memory) :
    let cleared := IDT_NUM_ENTRIES.fold (fun i _ m => idt_set_entry idt i 0#32 0#16 0#8 m) m
    Within m cleared idt (8*IDT_NUM_ENTRIES) ∧
      ∀ n < IDT_NUM_ENTRIES, read64 cleared (idt+BitVec.ofNat 32 (8*n)) = gate 0#32 0#16 0#8 := by
  refine fold_invariant (fun i (t : Memory) => Within m t idt (8*IDT_NUM_ENTRIES) ∧
    ∀ n < i, read64 t (idt+BitVec.ofNat 32 (8*n)) = gate 0#32 0#16 0#8) ⟨within_refl _ _ _,by omega⟩ ?_
  rintro i inside t ⟨within,before⟩
  refine ⟨within_trans within (idt_set_entry_within fits inside _ _ _ _),fun n below => ?_⟩
  rw [idt_set_entry_read fits inside (by omega)]
  split
  · rfl
  · exact before n (by omega)

/-- Handlers are installed one after another. -/
theorem idt_installs {idt : Word} (fits : idt.toNat+8*IDT_NUM_ENTRIES ≤ 2^32) (h : Handlers) (vectors : List Vector)
    (m : Memory) :
    let installed := vectors.foldl (fun m (n : Vector) => idt_set_entry idt n.val (h.interrupt_handler n) 0x08#16 0x8E#8 m) m
    Within m installed idt (8*IDT_NUM_ENTRIES) ∧
      (∀ n ∈ vectors, read64 installed (idt+BitVec.ofNat 32 (8*n.val)) = gate (h.interrupt_handler n) 0x08#16 0x8E#8) ∧
      ∀ n < IDT_NUM_ENTRIES, (∀ v ∈ vectors, v.val ≠ n) →
        read64 installed (idt+BitVec.ofNat 32 (8*n)) = read64 m (idt+BitVec.ofNat 32 (8*n)) := by
  have small : ∀ v : Vector, v.val < IDT_NUM_ENTRIES := fun v => v.isLt.trans (by decide)
  induction vectors using List.reverseRecOn with
  | nil => exact ⟨within_refl _ _ _,by simp,fun _ _ _ => rfl⟩
  | append_singleton before v ih =>
    obtain ⟨within,gates,others⟩ := ih
    rw [List.foldl_append,List.foldl_cons,List.foldl_nil]
    refine ⟨within_trans within (idt_set_entry_within fits (small v) _ _ _ _),fun n member => ?_,fun n below other => ?_⟩
    · rw [idt_set_entry_read fits (small v) (small n)]
      split
      · rename_i same
        rw [Fin.ext same]
      · rename_i notSame
        refine gates n ((List.mem_append.mp member).resolve_right (fun last => notSame ?_))
        rw [List.mem_singleton.mp last]
    · rw [idt_set_entry_read fits (small v) below,if_neg (other v (by simp))]
      exact others n below (fun v member => other v (List.mem_append_left _ member))

theorem idt_init_installs {idt : Word} (fits : idt.toNat+8*IDT_NUM_ENTRIES ≤ 2^32) (h : Handlers) (m : Memory) :
    Within m (idt_init idt h m).1 idt (8*IDT_NUM_ENTRIES) ∧
      ∀ n < IDT_NUM_ENTRIES, read64 (idt_init idt h m).1 (idt+BitVec.ofNat 32 (8*n)) = gateOf h n := by
  obtain ⟨clearing,cleared⟩ := idt_clears fits m
  obtain ⟨installing,handlers,others⟩ := idt_installs fits h (List.finRange 48)
    (IDT_NUM_ENTRIES.fold (fun i _ m => idt_set_entry idt i 0#32 0#16 0#8 m) m)
  have syscall : 0x80 < IDT_NUM_ENTRIES := by decide
  refine ⟨within_trans (within_trans clearing installing) (idt_set_entry_within fits syscall _ _ _ _),fun n below => ?_⟩
  rw [idt_init,idt_install_handlers,idt_set_entry_read fits syscall below,gateOf]
  by_cases vector : n < 48
  · rw [dif_pos vector,if_neg (by omega)]
    exact handlers ⟨n,vector⟩ (List.mem_finRange _)
  · rw [dif_neg vector]
    by_cases call : n = 0x80
    · rw [if_pos call,if_pos call.symm]
    · rw [if_neg call,if_neg (fun same => call same.symm),others n below (fun v _ same => vector (same ▸ v.isLt)),
        cleared n below]

theorem gdt_set_gate_within {gdt : Word} (fits : gdt.toNat+48 ≤ 2^32) {idx : Nat} (inside : idx < 6) (base limit : Word)
    (access gran : Byte) (m : Memory) : Within m (gdt_set_gate gdt idx base limit access gran m) gdt 48 := by
  rw [gdt_set_gate_writes]
  exact write64_within fits (by omega)

theorem gdt_set_gate_read {gdt : Word} (fits : gdt.toNat+48 ≤ 2^32) {idx n : Nat} (inside : idx < 6) (below : n < 6)
    (base limit : Word) (access gran : Byte) (m : Memory) :
    read64 (gdt_set_gate gdt idx base limit access gran m) (gdt+BitVec.ofNat 32 (8*n)) =
      if idx = n then segment base limit access gran else read64 m (gdt+BitVec.ofNat 32 (8*n)) := by
  rw [gdt_set_gate_writes]
  exact read64_table (show gdt.toNat+8*6 ≤ 2^32 from fits) inside below

theorem gdt_init_installs {gdt : Word} (fits : gdt.toNat+48 ≤ 2^32) (tss : Word) (m : Memory) :
    let installed := (gdt_init gdt tss m).1
    Within m installed gdt 48 ∧ read64 installed (gdt+BitVec.ofNat 32 (8*1)) = KERNEL_CODE ∧
      read64 installed (gdt+BitVec.ofNat 32 (8*2)) = KERNEL_DATA ∧
      read64 installed (gdt+BitVec.ofNat 32 (8*3)) = USER_CODE ∧
      read64 installed (gdt+BitVec.ofNat 32 (8*4)) = USER_DATA ∧
      read64 installed (gdt+BitVec.ofNat 32 (8*5)) = segment tss tss_get_limit 0x89#8 0x00#8 := by
  have reads : ∀ {idx n : Nat}, idx < 6 → n < 6 → ∀ base limit access gran m,
      read64 (gdt_set_gate gdt idx base limit access gran m) (gdt+BitVec.ofNat 32 (8*n)) =
        if idx = n then segment base limit access gran else read64 m (gdt+BitVec.ofNat 32 (8*n)) :=
    fun inside below base limit access gran m => gdt_set_gate_read fits inside below base limit access gran m
  refine ⟨?_,?_,?_,?_,?_,?_⟩
  · have within : ∀ {idx : Nat}, idx < 6 → ∀ base limit access gran m,
        Within m (gdt_set_gate gdt idx base limit access gran m) gdt 48 :=
      fun inside base limit access gran m => gdt_set_gate_within fits inside base limit access gran m
    exact within_trans (within_trans (within_trans (within_trans (within_trans (within (by decide) _ _ _ _ _)
      (within (by decide) _ _ _ _ _)) (within (by decide) _ _ _ _ _)) (within (by decide) _ _ _ _ _))
      (within (by decide) _ _ _ _ _)) (within (by decide) _ _ _ _ _)
  all_goals
    rw [gdt_init]
    repeat rw [reads (by decide) (by decide)]
    rfl

theorem tss_init_installs {tss : Word} (fits : tss.toNat+TSS_SIZE ≤ 2^32) (top segment : Word) (m : Memory) :
    Within m (tss_init tss top segment m) tss TSS_SIZE ∧
      read32 (tss_init tss top segment m) (tss+BitVec.ofNat 32 4) = top ∧
      read32 (tss_init tss top segment m) (tss+BitVec.ofNat 32 8) = segment := by
  have size : TSS_SIZE = 104 := rfl
  have four := toNat_after (a := tss) (i := 4) (by omega)
  have eight := toNat_after (a := tss) (i := 8) (by omega)
  have last := toNat_after (a := tss) (i := 102) (by omega)
  have clearing : Within m (memset physical m tss 0#8 TSS_SIZE) tss TSS_SIZE := by
    intro b changed
    by_contra outside
    refine changed ((memset_contents m tss 0#8 (by decide)).2 b (fun j below same => outside ?_))
    rw [same,toNat_after (by omega)]
    omega
  -- The last field is stored byte by byte, after the two words.
  have map : ∀ m : Memory, Within m (write16 m (tss+102#32) (BitVec.ofNat 16 TSS_SIZE)) (tss+BitVec.ofNat 32 102) 2 := by
    intro m
    have first : Within m (write8 m (tss+102#32) ((BitVec.ofNat 16 TSS_SIZE).extractLsb' 0 8)) (tss+BitVec.ofNat 32 102) 2 := by
      simpa using write8_within (m := m) (a := tss+102#32) (v := (BitVec.ofNat 16 TSS_SIZE).extractLsb' 0 8)
        (i := 0) (show (tss+102#32).toNat+2 ≤ 2^32 by omega) (by decide)
    exact within_trans first (write8_within (a := tss+102#32) (i := 1) (by omega) (by decide))
  have words : ∀ {i : Nat}, i+4 ≤ 102 → ∀ m, read32 (write16 m (tss+102#32) (BitVec.ofNat 16 TSS_SIZE))
      (tss+BitVec.ofNat 32 i) = read32 m (tss+BitVec.ofNat 32 i) := by
    intro i inside m
    have apart : Beside (tss+BitVec.ofNat 32 102) 2 tss 102 := .inr (by omega)
    exact agree_read32 (within_agree (map m) apart) (by omega) inside
  refine ⟨?_,?_,?_⟩
  · have stored := within_trans (within_trans clearing (write32_within (v := segment) (i := 8) fits (by decide)))
      (write32_within (v := top) (i := 4) fits (by decide))
    refine within_trans stored (fun b changed => ?_)
    have range := map _ b changed
    omega
  · rw [tss_init,words (by decide),read32_write32]
  · rw [tss_init,words (by decide),read32_write32_apart (by omega) (by omega) (by omega),read32_write32]

/-- The stack is set again. -/
theorem tss_set_kernel_stack_installed {l : Layout} {h : Handlers} {esp0 : Word} {m : Memory}
    (installed : Installed l h esp0 m) (stack_top : Word) :
    Installed l h stack_top (tss_set_kernel_stack l.tss stack_top m) := by
  have fits := l.tss_fits
  have size : TSS_SIZE = 104 := rfl
  have four := toNat_after (a := l.tss) (i := 4) (by omega)
  have eight := toNat_after (a := l.tss) (i := 8) (by omega)
  have within : Within m (tss_set_kernel_stack l.tss stack_top m) l.tss TSS_SIZE := write32_within fits (by decide)
  refine installed_stack installed (within_agree within l.gdt_tss.symm) (within_agree within l.idt_tss.symm) ?_ ?_
  · rw [tss_set_kernel_stack,read32_write32]
  · rw [tss_set_kernel_stack,read32_write32_apart (by omega) (by omega) (by omega),installed.ss0]

/-- `ltr` finds the task segment. -/
theorem tss_load_finds {gdt tss : Word} (fits : gdt.toNat+48 ≤ 2^32) {m : Memory}
    (task : read64 m (gdt+BitVec.ofNat 32 (8*5)) = segment tss tss_get_limit 0x89#8 0x00#8) :
    ∃ m', ltr m ⟨gdt,47#32⟩ 0x28#16 = some (m',⟨tss,103#32⟩) ∧ Within m m' (gdt+BitVec.ofNat 32 40) 8 := by
  have found : descriptor m ⟨gdt,47#32⟩ 0x28#16 = some (segment tss tss_get_limit 0x89#8 0x00#8) := by
    rw [descriptor_found m gdt (by decide),← task]
    rfl
  have access : ∀ i < 8, (segment tss tss_get_limit 0x89#8 0x00#8).getLsbD (40+i) = (0x89#8).getLsbD i :=
    fun i inside => segment_attributes tss tss_get_limit 0x89#8 0x00#8 inside
  have available : Descriptor.System (segment tss tss_get_limit 0x89#8 0x00#8) ∧
      Descriptor.kind (segment tss tss_get_limit 0x89#8 0x00#8) = 0x9#4 ∧
      Descriptor.Present (segment tss tss_get_limit 0x89#8 0x00#8) := by
    refine ⟨access 4 (by decide),BitVec.eq_of_getLsbD_eq (fun i below => ?_),access 7 (by decide)⟩
    rw [Descriptor.kind,BitVec.getLsbD_extractLsb',access i (by omega),decide_eq_true below,Bool.true_and]
    revert i
    decide
  rw [ltr,found]
  simp only [if_pos available,segment_base,segment_limit (show tss_get_limit.toNat < 2^20 by decide)]
  have start := toNat_after (a := gdt) (i := 40) (by omega)
  refine ⟨_,rfl,?_⟩
  have byte : gdt+BitVec.ofNat 32 40+BitVec.ofNat 32 5 = gdt+BitVec.ofNat 32 45 := by
    rw [BitVec.add_assoc,← BitVec.ofNat_add]
  have within := write8_within (m := m) (i := 5) (v := m (gdt+BitVec.ofNat 32 45) ||| 2#8)
    (show (gdt+BitVec.ofNat 32 40).toNat+8 ≤ 2^32 by omega) (by decide)
  rw [byte] at within
  exact within

/-- The tables are set up, whatever was in memory. -/
theorem set_up_installs (l : Layout) (h : Handlers) (top : Word) (m : Memory) :
    ∃ m', set_up l h top m = some (m',registers l) ∧ Installed l h top m' := by
  have gdtFits := l.gdt_fits
  have size : TSS_SIZE = 104 := rfl
  have entries : IDT_NUM_ENTRIES = 256 := rfl
  obtain ⟨_,esp,ss⟩ := tss_init_installs l.tss_fits top 0x10#32 m
  obtain ⟨gdtWithin,code,data,userCode,userData,task⟩ := gdt_init_installs gdtFits l.tss (tss_init l.tss top 0x10#32 m)
  obtain ⟨loaded,found,busy⟩ := tss_load_finds gdtFits task
  obtain ⟨idtWithin,gates⟩ := idt_init_installs l.idt_fits h loaded
  have start := toNat_after (a := l.gdt) (i := 40) (by omega)
  have last := toNat_after (a := l.gdt) (i := 40) (by omega)
  have gdtTss := l.gdt_tss
  -- The entries before the last one are not touched by `ltr`.
  have kept : Agree (idt_init l.idt h loaded).1 (gdt_init l.gdt l.tss (tss_init l.tss top 0x10#32 m)).1 l.gdt 40 := by
    intro b from_ below
    rw [within_agree idtWithin l.gdt_idt.symm b from_ (by omega)]
    exact within_agree busy (n := 40) (.inr (by omega)) b from_ below
  have taskKept : Agree (idt_init l.idt h loaded).1 (tss_init l.tss top 0x10#32 m) l.tss TSS_SIZE := by
    intro b from_ below
    have apart : Beside (l.gdt+BitVec.ofNat 32 40) 8 l.tss TSS_SIZE := by
      rw [Beside] at gdtTss ⊢
      omega
    rw [within_agree idtWithin l.idt_tss b from_ below,within_agree busy apart b from_ below,
      within_agree gdtWithin gdtTss b from_ below]
  refine ⟨(idt_init l.idt h loaded).1,?_,?_,?_,?_,?_,gates,?_,?_⟩
  · rw [set_up]
    simp only [show (gdt_init l.gdt l.tss (tss_init l.tss top 0x10#32 m)).2 = ⟨l.gdt,47#32⟩ from rfl,found]
    rfl
  · rw [agree_read64 kept (by omega) (by decide),code]
  · rw [agree_read64 kept (by omega) (by decide),data]
  · rw [agree_read64 kept (by omega) (by decide),userCode]
  · rw [agree_read64 kept (by omega) (by decide),userData]
  · rw [agree_read32 taskKept l.tss_fits (by decide),esp]
  · rw [agree_read32 taskKept l.tss_fits (by decide),ss]

/-! ### Taking a vector -/

/-- The privilege level of user code or of the kernel. -/
def level (user : Bool) : BitVec 2 := if user then 3#2 else 0#2

/-- Where a vector should lead: the handlers of interrupts are for the processor and the
    kernel, and the system call is for everybody. -/
def expected (h : Handlers) (esp0 : Word) (user software : Bool) (n : BitVec 8) : Except Fault Entering :=
  let stack := if user then some (esp0,0x10#16) else none
  if inside : n.toNat < 48 then
    if software ∧ user then .error ⟨GENERAL_PROTECTION,8*n.toNat+2⟩
    else .ok ⟨0x08#16,h.interrupt_handler ⟨n.toNat,inside⟩,true,stack⟩
  else if n = 0x80#8 then .ok ⟨0x08#16,h.syscall_handler_128,true,stack⟩
  else .error ⟨GENERAL_PROTECTION,8*n.toNat+2+if software then 0 else 1⟩

section
variable {l : Layout} {h : Handlers} {esp0 : Word} {m : Memory} (installed : Installed l h esp0 m)
include installed

theorem kernel_code_found : descriptor m (registers l).gdt 0x08#16 = some KERNEL_CODE := by
  rw [registers,descriptor_found m l.gdt (by decide),← installed.kernel_code]
  rfl

theorem kernel_data_found : descriptor m (registers l).gdt 0x10#16 = some KERNEL_DATA := by
  rw [registers,descriptor_found m l.gdt (by decide),← installed.kernel_data]
  rfl

/-- Entries from user mode find the kernel stack. -/
theorem inner_stack_found (ext : Nat) : inner_stack m (registers l) 0#2 ext = .ok (esp0,0x10#16) := by
  have esp : read32 m ((registers l).tss.base+BitVec.ofNat 32 (8*(0#2).toNat+4)) = esp0 := installed.esp0
  have ss : read32 m ((registers l).tss.base+BitVec.ofNat 32 (8*(0#2).toNat+8)) = 0x10#32 := installed.ss0
  have found := kernel_data_found installed
  have large : ¬ (registers l).tss.limit.toNat < 8*(0#2).toNat+9 := show ¬ (103#32).toNat < 8*(0#2).toNat+9 by decide
  rw [inner_stack,if_neg large]
  simp only [esp,ss]
  rw [show (0x10#32).setWidth 16 = 0x10#16 from rfl,found]
  simp only []
  rw [if_neg (by decide),if_neg (by decide)]

/-- The way through a gate to the kernel's code. -/
theorem through_kernel {handler : Word} {type_attr : Byte} (user : Bool)
    (off : Descriptor.InterruptGate (gate handler 0x08#16 type_attr)) (ext : Nat) :
    through m (registers l) (level user) (gate handler 0x08#16 type_attr) ext =
      .ok ⟨0x08#16,handler,true,if user then some (esp0,0x10#16) else none⟩ := by
  have found := kernel_code_found installed
  rw [← gate_selector handler 0x08#16 type_attr] at found
  cases user with
  | false =>
    rw [through_same found (by decide) (by decide) (by decide),gate_offset,gate_selector,decide_eq_true off]
    rfl
  | true =>
    rw [through_inner found (by decide) (by decide) (by decide) (by decide) (inner_stack_found installed ext),gate_offset,
      gate_selector,decide_eq_true off]
    rfl

theorem deliver_expected (user software : Bool) (n : BitVec 8) :
    deliver m (registers l) (level user) software n = expected h esp0 user software n := by
  have inside : 8*n.toNat+7 ≤ (registers l).idt.limit.toNat := by
    have below := n.isLt
    change 8*n.toNat+7 ≤ 2047
    omega
  have entry : read64 m ((registers l).idt.base+BitVec.ofNat 32 (8*n.toNat)) = gateOf h n.toNat :=
    installed.gates n.toNat n.isLt
  rw [expected]
  by_cases vector : n.toNat < 48
  · rw [gateOf,dif_pos vector] at entry
    obtain ⟨isGate,present,dpl⟩ := gate_kind (h.interrupt_handler ⟨n.toNat,vector⟩) 0x08#16 0x8E#8 (by decide) (by decide)
    rw [dif_pos vector]
    by_cases denied : software ∧ user
    · obtain ⟨rfl,rfl⟩ := denied
      rw [deliver_denied inside entry isGate (by rw [dpl]; decide)]
      rfl
    · have inner : ∀ user software, ¬ (software = true ∧ user = true) →
          ¬ (software = true ∧ BitVec.extractLsb' 5 2 0x8E#8 < level user) := by
        decide
      rw [deliver_gate inside entry isGate present (by rw [dpl]; exact inner user software denied),
        through_kernel installed user isGate,if_neg denied]
  · rw [dif_neg vector]
    rw [gateOf,dif_neg vector] at entry
    by_cases call : n = 0x80#8
    · rw [if_pos (by rw [call]; rfl)] at entry
      obtain ⟨isGate,present,dpl⟩ := gate_kind h.syscall_handler_128 0x08#16 0xEE#8 (by decide) (by decide)
      have outer : ∀ user, ¬ BitVec.extractLsb' 5 2 0xEE#8 < level user := by
        decide
      rw [deliver_gate inside entry isGate present (by rw [dpl]; exact fun both => outer user both.2),
        through_kernel installed user isGate,if_pos call]
    · have other : n.toNat ≠ 0x80 := fun same => call (BitVec.eq_of_toNat_eq same)
      rw [if_neg other] at entry
      rw [deliver_no_gate inside entry (by decide),if_neg call]

end

/-! ### Runs -/

/-- What happens to the tables later: `schedule` sets the stack, and the rest of the
    kernel and its processes write elsewhere. -/
inductive Changes (l : Layout) : Word × Memory → Word × Memory → Prop
  | stack (esp0 stack_top : Word) (m : Memory) : Changes l (esp0,m) (stack_top,tss_set_kernel_stack l.tss stack_top m)
  | elsewhere (esp0 : Word) (m m' : Memory) (gdt : Agree m' m l.gdt 48) (idt : Agree m' m l.idt (8*IDT_NUM_ENTRIES))
      (tss : Agree m' m l.tss TSS_SIZE) : Changes l (esp0,m) (esp0,m')

theorem changes_installed {l : Layout} {h : Handlers} {x y : Word × Memory} (installed : Installed l h x.1 x.2)
    (changes : Relation.ReflTransGen (Changes l) x y) : Installed l h y.1 y.2 := by
  induction changes with
  | refl => exact installed
  | tail _ change ih =>
    cases change with
    | stack esp0 stack_top m => exact tss_set_kernel_stack_installed ih stack_top
    | elsewhere esp0 m m' gdt idt tss => exact installed_agree ih gdt idt tss

/-- Wherever the tables are put and whatever was in memory: `kmain` sets them up, and from
    then on every vector leads where it should, from user mode with the stack that was set
    last. User code that names the vector of a device or of an exception is refused. -/
theorem vectors_lead (l : Layout) (h : Handlers) (kernel_stack_top : Word) (m : Memory) :
    ∃ booted t, set_up l h kernel_stack_top m = some (booted,t) ∧
      ∀ esp0 m', Relation.ReflTransGen (Changes l) (kernel_stack_top,booted) (esp0,m') →
        ∀ user software n, deliver m' t (level user) software n = expected h esp0 user software n := by
  obtain ⟨booted,done,installed⟩ := set_up_installs l h kernel_stack_top m
  refine ⟨booted,_,done,fun esp0 m' changes user software n => ?_⟩
  exact deliver_expected (changes_installed installed changes) user software n

/-! ### The entries of the processor -/

/-- The processor enters a handler and saves what it interrupts. -/
def enter (c : Cpu) (e : Entering) (error_code : List Word) : Cpu :=
  let r := c.regs
  let c := match e.stack with
    | some (esp,ss) =>
      let c := (c.setEsp esp).pushAll ([r.ss,r.esp,r.eflags,r.cs,r.eip]++error_code)
      { c with regs := { c.regs with ss := ss.setWidth 32 } }
    | none => c.pushAll ([r.eflags,r.cs,r.eip]++error_code)
  let flags := if e.masks then GATE_FLAGS else GATE_FLAGS ||| 0x200#32
  { c with regs := { c.regs with eflags := r.eflags &&& flags, cs := e.cs.setWidth 32, eip := e.eip } }

/-- The level that the code segment of the processor stands for. -/
def inUser (c : Cpu) : Bool := decide (Ring3 c.regs.cs)

/-- With the tables in memory, the way of the processor through them is what `interrupt`
    says, and leads to the handler of the vector; so is `int 0x80` for everybody. -/
theorem interrupt_by_tables {l : Layout} {h : Handlers} {c : Cpu} (installed : Installed l h c.kernel.esp0 c.mem)
    (error_code : List Word) :
    (∀ n : Vector, ∃ e, deliver c.mem (registers l) (level (inUser c)) false (BitVec.ofNat 8 n) = .ok e ∧
      enter c e error_code =
        { interrupt c error_code with regs := { (interrupt c error_code).regs with eip := h.interrupt_handler n } }) ∧
    ∃ e, deliver c.mem (registers l) (level (inUser c)) true 0x80#8 = .ok e ∧
      enter c e [] = { interrupt c [] with regs := { (interrupt c []).regs with eip := h.syscall_handler_128 } } := by
  have enters : ∀ handler codes, enter c ⟨0x08#16,handler,true,if inUser c then some (c.kernel.esp0,0x10#16) else none⟩ codes =
      { interrupt c codes with regs := { (interrupt c codes).regs with eip := handler } } := by
    intro handler codes
    rw [enter,interrupt]
    by_cases user : Ring3 c.regs.cs
    · simp only [inUser,user,decide_true,if_true]
      rfl
    · simp only [inUser,user,decide_false,if_false,Bool.false_eq_true]
      rfl
  refine ⟨fun n => ⟨_,?_,enters (h.interrupt_handler n) error_code⟩,_,?_,enters h.syscall_handler_128 []⟩
  · have value : (BitVec.ofNat 8 n.val).toNat = n.val := by
      rw [BitVec.toNat_ofNat]
      omega
    rw [deliver_expected installed,expected,dif_pos (by omega),if_neg (by simp)]
    simp only [value]
  · rw [deliver_expected installed]
    rfl

/-- Tables in the data of the kernel. -/
def pcLayout : Layout where
  gdt := 0x108000#32
  idt := 0x108100#32
  tss := 0x108900#32
  gdt_fits := by decide
  idt_fits := by decide
  tss_fits := by decide
  gdt_idt := .inl (by decide)
  gdt_tss := .inl (by decide)
  idt_tss := .inl (by decide)

def pcHandlers : Handlers := ⟨fun n => BitVec.ofNat 32 (0x100200+16*n.val),0x100600#32⟩

/-- User code at the entry of its program. -/
def userRegs : Regs :=
  { eax := 0#32, ebx := 0#32, ecx := 0#32, edx := 0#32, esi := 0#32, edi := 0#32, ebp := 0#32, esp := 0xC0000000#32,
    eip := 0#32, eflags := 0x202#32, cs := 0x1B#32, ss := 0x23#32, ds := 0x23#32, es := 0x23#32, fs := 0x23#32, gs := 0x23#32 }

/-- The timer interrupts user code on the small PC. -/
theorem interrupt_by_tables_pc : ∃ (frames : Pfa.Frames) (m : Memory) (e : Entering),
    set_up pcLayout pcHandlers 0x121000#32 (fun _ => 0#8) = some (m,registers pcLayout) ∧
    deliver m (registers pcLayout) 3#2 false 32#8 = .ok e ∧
    (enter ⟨userRegs,(Kmain.pcKernel frames).setMem m⟩ e []).regs.eip = 0x100400#32 := by
  obtain ⟨m,done,installed⟩ := set_up_installs pcLayout pcHandlers 0x121000#32 (fun _ => 0#8)
  obtain ⟨frames,_⟩ := Kmain.pc_kmain
  obtain ⟨e,delivered,entered⟩ := (interrupt_by_tables (c := ⟨userRegs,(Kmain.pcKernel frames).setMem m⟩) installed []).1 32
  have user : inUser ⟨userRegs,(Kmain.pcKernel frames).setMem m⟩ = true := decide_eq_true (show Ring3 0x1B#32 by decide)
  rw [user] at delivered
  exact ⟨frames,m,e,done,delivered,by rw [entered]; rfl⟩

end SoKernel.Descriptors
