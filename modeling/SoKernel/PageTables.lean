import SoKernel.Paging

/-!
What the page tables mean. A page map says what each virtual page was last
mapped to; a directory represents a page map when its 4 MiB entries and its
tables spell it out. Through such a directory the processor sees exactly the
page map (`translate_correct`), and `paging_create_kernel_dir` and
`paging_map_4k` take represented maps to represented maps.
-/
namespace SoKernel.PageTables
open SoKernel.Words SoKernel.Pages SoKernel.Pfa SoKernel.Paging
set_option linter.unusedSimpArgs false

/-- The frame and the flags that each virtual page was last mapped to. A page
    that was never mapped keeps the identity map of the kernel. -/
abbrev PageMap := Nat → Option (Word × Word)

/-- What an address means under a page map. -/
def view (map : PageMap) (virt : Word) : Translation :=
  match map (pageOf virt) with
  | none => ⟨virt,true,false⟩
  | some (phys,flags) =>
    ⟨(phys &&& 0xFFFFF000#32) ||| (virt &&& 0xFFF#32),flags &&& PTE_RW ≠ 0#32,flags &&& PTE_USER ≠ 0#32⟩

/-- The flags that a page may be mapped with: present, and any of writable and user. -/
def ValidFlags (flags : Word) : Prop :=
  flags = PTE_PRESENT ∨ flags = PTE_PRESENT ||| PTE_RW ∨ flags = PTE_PRESENT ||| PTE_USER ∨
    flags = PTE_PRESENT ||| PTE_RW ||| PTE_USER

instance (flags : Word) : Decidable (ValidFlags flags) := inferInstanceAs (Decidable (_ ∨ _))

/-- The 4 MiB entry that `paging_create_kernel_dir` writes. -/
def wideEntry (i : Nat) : Word := BitVec.ofNat 32 i <<< 22 ||| PDE_PRESENT ||| PDE_RW ||| PDE_PS
/-- The directory entry of a table. -/
def tableEntry (t : Word) (user : Bool) : Word := t ||| (if user then 7#32 else 3#32)
/-- The table entry of a page. -/
def pageEntry (map : PageMap) (v : Nat) : Word :=
  match map v with
  | none => pageAddr v ||| 3#32
  | some (phys,flags) => (phys &&& 0xFFFFF000#32) ||| flags

/-- The directory at `dir`, with the given tables, represents the page map. -/
structure Represents (m : Memory) (dir : Word) (tables : Nat → Option Word) (map : PageMap) : Prop where
  aligned : PageAligned dir
  wide : ∀ i < 1024, tables i = none → entry m dir i = wideEntry i ∧ ∀ j < 1024, map (i*1024+j) = none
  placed : ∀ i < 1024, ∀ t, tables i = some t → PageAligned t ∧ t ≠ dir
  distinct : ∀ i < 1024, ∀ j < 1024, ∀ t, tables i = some t → tables j = some t → i = j
  narrow : ∀ i < 1024, ∀ t, tables i = some t → ∃ user, entry m dir i = tableEntry t user ∧
    ∀ j < 1024, ∀ phys flags, map (i*1024+j) = some (phys,flags) → flags &&& PTE_USER ≠ 0#32 → user = true
  pages : ∀ i < 1024, ∀ t, tables i = some t → ∀ j < 1024, entry m t j = pageEntry map (i*1024+j)
  valid : ∀ v phys flags, map v = some (phys,flags) → ValidFlags flags

/-! ### The walk -/

theorem dirIndex_lt (virt : Word) : (virt >>> 22).toNat < 1024 := by
  have := virt.isLt
  rw [BitVec.toNat_ushiftRight,Nat.shiftRight_eq_div_pow]
  omega

theorem tableIndex_lt (virt : Word) : ((virt >>> 12) &&& 0x3FF#32).toNat < 1024 := by
  rw [show (0x3FF#32 : Word) = BitVec.ofNat 32 (2^10-1) by decide,and_low_toNat 10 (by decide)]
  omega

theorem pageOf_index (virt : Word) :
    (virt >>> 22).toNat*1024+((virt >>> 12) &&& 0x3FF#32).toNat = pageOf virt := by
  rw [show (0x3FF#32 : Word) = BitVec.ofNat 32 (2^10-1) by decide,and_low_toNat 10 (by decide),
    BitVec.toNat_ushiftRight,BitVec.toNat_ushiftRight,Nat.shiftRight_eq_div_pow,Nat.shiftRight_eq_div_pow]
  simp only [pageOf]
  omega

theorem wideEntry_flags (i : Nat) : wideEntry i &&& PDE_PRESENT = 1#32 ∧ wideEntry i &&& PDE_PS = 0x80#32 ∧
    wideEntry i &&& PDE_RW = 2#32 ∧ wideEntry i &&& PDE_USER = 0#32 := by
  have aligned : PageAligned (BitVec.ofNat 32 i <<< 22) := by
    simp only [PageAligned,BitVec.toNat_shiftLeft,BitVec.toNat_ofNat,Nat.shiftLeft_eq]
    omega
  have joined : wideEntry i = BitVec.ofNat 32 i <<< 22 ||| 0x83#32 := by
    simp only [wideEntry,PDE_PRESENT,PDE_RW,PDE_PS,BitVec.or_assoc]
    rfl
  rw [joined]
  refine ⟨?_,?_,?_,?_⟩ <;> rw [or_flags_and aligned (by decide)] <;> decide

theorem tableEntry_flags {t : Word} (aligned : PageAligned t) (user : Bool) :
    tableEntry t user &&& PDE_PRESENT = 1#32 ∧ tableEntry t user &&& PDE_PS = 0#32 ∧
    tableEntry t user &&& PDE_RW = 2#32 ∧ (tableEntry t user &&& PDE_USER ≠ 0#32 ↔ user = true) ∧
    tableEntry t user &&& 0xFFFFF000#32 = t := by
  have small : ((if user then 7#32 else 3#32) : Word).toNat < 4096 := by cases user <;> decide
  simp only [tableEntry]
  refine ⟨?_,?_,?_,?_,or_flags_page aligned small⟩ <;> rw [or_flags_and aligned (by decide)] <;>
    cases user <;> decide

theorem tableEntry_injective {t : Word} (aligned : PageAligned t) {u v : Bool}
    (same : tableEntry t u = tableEntry t v) : u = v := by
  have first := (tableEntry_flags aligned u).2.2.2.1
  have second := (tableEntry_flags aligned v).2.2.2.1
  rw [same] at first
  exact Bool.eq_iff_iff.mpr (first.symm.trans second)

/-- A 4 MiB entry of the identity map leads every address to itself. -/
theorem wideEntry_identity (virt : Word) :
    (wideEntry (virt >>> 22).toNat &&& 0xFFC00000#32) ||| (virt &&& 0x003FFFFF#32) = virt := by
  have high : ∀ i < 32, (0xFFC00000#32 : Word).getLsbD i = decide (22 ≤ i) := by decide
  have low : ∀ i < 32, (0x003FFFFF#32 : Word).getLsbD i = decide (i < 22) := by decide
  have flags : ∀ i < 32, 22 ≤ i → (PDE_PRESENT.getLsbD i || PDE_RW.getLsbD i || PDE_PS.getLsbD i) = false := by decide
  apply BitVec.eq_of_getLsbD_eq
  intro i inside
  simp only [wideEntry,BitVec.ofNat_toNat,BitVec.setWidth_eq,BitVec.getLsbD_or,BitVec.getLsbD_and,
    high i inside,low i inside]
  by_cases upper : 22 ≤ i
  · have clear := flags i inside upper
    simp only [Bool.or_eq_false_iff] at clear
    simp only [clear,BitVec.getLsbD_shiftLeft,BitVec.getLsbD_ushiftRight,inside,upper,show ¬ i < 22 by omega,
      Nat.add_sub_cancel' upper]
    simp
  · simp [upper,show i < 22 by omega]

theorem validFlags_small {flags : Word} (valid : ValidFlags flags) : flags.toNat < 4096 := by
  rcases valid with rfl | rfl | rfl | rfl <;> decide

theorem validFlags_present {flags : Word} (valid : ValidFlags flags) : flags &&& PTE_PRESENT = 1#32 := by
  rcases valid with rfl | rfl | rfl | rfl <;> decide

/-- Through a directory that represents a page map the processor sees the map. -/
theorem translate_correct {m : Memory} {dir : Word} {tables : Nat → Option Word} {map : PageMap}
    (rep : Represents m dir tables map) (virt : Word) : translate m dir virt = some (view map virt) := by
  have insideI := dirIndex_lt virt
  have insideJ := tableIndex_lt virt
  have index := pageOf_index virt
  cases found : tables (virt >>> 22).toNat with
  | none =>
    obtain ⟨isWide,unmapped⟩ := rep.wide _ insideI found
    have none := unmapped _ insideJ
    rw [index] at none
    obtain ⟨present,wide,writable,user⟩ := wideEntry_flags (virt >>> 22).toNat
    simp only [Paging.translate,isWide,present,wide,writable,user,view,none,wideEntry_identity]
    simp
  | some t =>
    obtain ⟨alignedT,_⟩ := rep.placed _ insideI t found
    obtain ⟨user,isTable,userPages⟩ := rep.narrow _ insideI t found
    have page := rep.pages _ insideI t found _ insideJ
    have userPage := userPages _ insideJ
    rw [index] at page userPage
    obtain ⟨present,narrow,writable,userBit,frame⟩ := tableEntry_flags alignedT user
    simp only [Paging.translate,isTable,present,narrow,writable,frame,page,userBit]
    cases mapped : map (pageOf virt) with
    | none =>
      have aligned := pageAddr_aligned (pageOf virt)
      have flags : ∀ mask : Word, mask.toNat < 4096 → (pageAddr (pageOf virt) ||| 3#32) &&& mask = 3#32 &&& mask :=
        fun mask small => or_flags_and aligned small
      simp only [pageEntry,mapped,view,flags PTE_PRESENT (by decide),flags PTE_RW (by decide),
        flags PTE_USER (by decide),or_flags_page aligned (show (3#32 : Word).toNat < 4096 by decide),page_or_offset]
      simp [PTE_PRESENT,PTE_RW,PTE_USER]
    | some target =>
      obtain ⟨phys,flags⟩ := target
      have valid := rep.valid _ _ _ mapped
      have aligned := and_page_aligned phys
      have present := validFlags_present valid
      have userSet := userPage phys flags mapped
      simp only [pageEntry,mapped,view,or_flags_and aligned (show PTE_PRESENT.toNat < 4096 by decide),
        or_flags_and aligned (show PTE_RW.toNat < 4096 by decide),
        or_flags_and aligned (show PTE_USER.toNat < 4096 by decide),
        or_flags_page aligned (validFlags_small valid),present]
      by_cases isUser : flags &&& PTE_USER = 0#32
      · simp [isUser]
      · simp [isUser,userSet isUser]

/-! ### Frames of a directory -/

/-- The frames of a directory and of its tables. -/
def Owns (dir : Word) (tables : Nat → Option Word) (f : Nat) : Prop :=
  f = pageOf dir ∨ ∃ i < 1024, ∃ t, tables i = some t ∧ f = pageOf t

/-- A new table adds its own frame. -/
theorem owns_update {dir : Word} {tables : Nat → Option Word} {i f g : Nat} (inside : f < MAX_FRAMES)
    (owns : Owns dir (Function.update tables i (some (pageAddr f))) g) : Owns dir tables g ∨ g = f := by
  rcases owns with same | ⟨k,insideK,t,found,same⟩
  · exact .inl (.inl same)
  · by_cases new : k = i
    · rw [new,Function.update_self,Option.some_inj] at found
      rw [same,← found]
      exact .inr (pageOf_pageAddr inside)
    · rw [Function.update_of_ne new] at found
      exact .inl (.inr ⟨k,insideK,t,found,same⟩)

/-- A directory keeps its meaning while its own frames keep their contents. -/
theorem represents_congr {m n : Memory} {dir : Word} {tables : Nat → Option Word} {map : PageMap}
    (rep : Represents m dir tables map) (same : ∀ a, Owns dir tables (pageOf a) → n a = m a) :
    Represents n dir tables map := by
  have dirEntry : ∀ i < 1024, entry n dir i = entry m dir i := fun i inside =>
    entry_congr rep.aligned inside (fun a inDir => same a (.inl inDir))
  have tabEntry : ∀ i < 1024, ∀ t, tables i = some t → ∀ j < 1024, entry n t j = entry m t j :=
    fun i insideI t found j insideJ =>
      entry_congr (rep.placed i insideI t found).1 insideJ (fun a inTab => same a (.inr ⟨i,insideI,t,found,inTab⟩))
  refine ⟨rep.aligned,?_,rep.placed,rep.distinct,?_,?_,rep.valid⟩
  · intro i inside none
    rw [dirEntry i inside]
    exact rep.wide i inside none
  · intro i inside t found
    rw [dirEntry i inside]
    exact rep.narrow i inside t found
  · intro i inside t found j insideJ
    rw [tabEntry i inside t found j insideJ]
    exact rep.pages i inside t found j insideJ

/-! ### Creating a directory -/

@[simp] theorem store32_physical (m : Memory) (a v : Word) : store32 physical m a v = write32 m a v := rfl
@[simp] theorem load32_physical (m : Memory) (a : Word) : load32 physical m a = read32 m a := rfl

/-- A new directory takes one free frame and represents the empty page map. -/
theorem create_correct {p : Phys} (zero : is_used p.frames 0 = true) :
    (paging_create_kernel_dir physical p = (0#32,p) ∧ ∀ f < MAX_FRAMES, is_used p.frames f = true) ∨
      ∃ f < MAX_FRAMES, is_used p.frames f = false ∧ (∀ g < f, is_used p.frames g = true) ∧
        (paging_create_kernel_dir physical p).1 = pageAddr f ∧ pageAddr f ≠ 0#32 ∧
        (paging_create_kernel_dir physical p).2.frames = mark_used p.frames f ∧
        Represents (paging_create_kernel_dir physical p).2.mem (pageAddr f) (fun _ => none) (fun _ => none) ∧
        ∀ a, pageOf a ≠ f → (paging_create_kernel_dir physical p).2.mem a = p.mem a := by
  rcases pfa_alloc_cases p.frames with ⟨failed,full⟩ | ⟨f,inside,free,least,found⟩
  · refine .inl ⟨?_,full⟩
    simp [paging_create_kernel_dir,failed]
  · have nonzero := pfa_alloc_nonzero zero inside free
    have filled := fill_page (pageAddr_aligned f) p.mem wideEntry
    refine .inr ⟨f,inside,free,least,?_⟩
    simp only [paging_create_kernel_dir,found,nonzero,if_false,store32_physical]
    refine ⟨trivial,nonzero,trivial,?_,?_⟩
    · exact
        { aligned := pageAddr_aligned f
          wide := fun i insideI _ => ⟨filled.1 i insideI,fun _ _ => rfl⟩
          placed := by intro i _ t found; cases found
          distinct := by intro i _ j _ t found; cases found
          narrow := by intro i _ t found; cases found
          pages := by intro i _ t found; cases found
          valid := by intro v phys flags mapped; cases mapped }
    · intro a other
      exact filled.2 a (by rwa [pageOf_pageAddr inside])

/-! ### Mapping a page -/

/-- Splitting a 4 MiB entry into a table of its own pages changes no meaning. -/
theorem represents_split {m n : Memory} {dir t : Word} {tables : Nat → Option Word} {map : PageMap} {i : Nat}
    (user : Bool) (rep : Represents m dir tables map) (insideI : i < 1024) (none : tables i = none)
    (aligned : PageAligned t) (fresh : ¬ Owns dir tables (pageOf t))
    (filled : ∀ j < 1024, entry n t j = pageAddr (i*1024+j) ||| 3#32)
    (linked : ∀ k < 1024, entry n dir k = if k = i then tableEntry t user else entry m dir k)
    (others : ∀ k < 1024, ∀ t', tables k = some t' → ∀ j < 1024, entry n t' j = entry m t' j) :
    Represents n dir (Function.update tables i (some t)) map := by
  obtain ⟨_,unmapped⟩ := rep.wide i insideI none
  have notDir : t ≠ dir := fun same => fresh (.inl (by rw [same]))
  have notTable : ∀ k < 1024, tables k ≠ some t := fun k inside found => fresh (.inr ⟨k,inside,t,found,rfl⟩)
  -- The entries of the tables are those of the old tables and the new one.
  have cases : ∀ k t', Function.update tables i (some t) k = some t' → (k = i ∧ t' = t) ∨ (k ≠ i ∧ tables k = some t') := by
    intro k t' found
    by_cases same : k = i
    · subst same
      rw [Function.update_self,Option.some_inj] at found
      exact .inl ⟨rfl,found.symm⟩
    · rw [Function.update_of_ne same] at found
      exact .inr ⟨same,found⟩
  refine ⟨rep.aligned,?_,?_,?_,?_,?_,rep.valid⟩
  · intro k inside found
    have other : k ≠ i := by
      rintro rfl
      rw [Function.update_self] at found
      cases found
    rw [Function.update_of_ne other] at found
    rw [linked k inside,if_neg other]
    exact rep.wide k inside found
  · intro k inside t' found
    rcases cases k t' found with ⟨rfl,rfl⟩ | ⟨_,old⟩
    · exact ⟨aligned,notDir⟩
    · exact rep.placed k inside t' old
  · intro k insideK l insideL t' foundK foundL
    rcases cases k t' foundK with ⟨rfl,rfl⟩ | ⟨_,oldK⟩
    · rcases cases l t' foundL with ⟨rfl,_⟩ | ⟨_,oldL⟩
      · rfl
      · exact absurd oldL (notTable l insideL)
    · rcases cases l t' foundL with ⟨rfl,rfl⟩ | ⟨_,oldL⟩
      · exact absurd oldK (notTable k insideK)
      · exact rep.distinct k insideK l insideL t' oldK oldL
  · intro k inside t' found
    rcases cases k t' found with ⟨rfl,rfl⟩ | ⟨other,old⟩
    · refine ⟨user,by rw [linked k inside,if_pos rfl],?_⟩
      intro j insideJ phys flags mapped
      rw [unmapped j insideJ] at mapped
      cases mapped
    · rw [linked k inside,if_neg other]
      exact rep.narrow k inside t' old
  · intro k inside t' found j insideJ
    rcases cases k t' found with ⟨rfl,rfl⟩ | ⟨_,old⟩
    · rw [filled j insideJ,pageEntry,unmapped j insideJ]
    · rw [others k inside t' old j insideJ]
      exact rep.pages k inside t' old j insideJ

/-- Storing a table entry, and the user bit in the directory when the page is a
    user page, maps the page. -/
theorem represents_update {m n : Memory} {dir t phys flags : Word} {tables : Nat → Option Word} {map : PageMap}
    {i j : Nat} (user : Bool) (rep : Represents m dir tables map) (insideI : i < 1024) (insideJ : j < 1024)
    (found : tables i = some t) (valid : ValidFlags flags)
    (linked : ∀ k < 1024, entry n dir k = if k = i then tableEntry t user else entry m dir k)
    (raised : entry m dir i = tableEntry t true → user = true) (userBit : flags &&& PTE_USER ≠ 0#32 → user = true)
    (stored : ∀ k < 1024, ∀ t', tables k = some t' → ∀ l < 1024,
      entry n t' l = if k = i ∧ l = j then (phys &&& 0xFFFFF000#32) ||| flags else entry m t' l) :
    Represents n dir tables (Function.update map (i*1024+j) (some (phys,flags))) := by
  have pageIndex : ∀ {k l}, l < 1024 → (k*1024+l = i*1024+j ↔ k = i ∧ l = j) := by
    intro k l inside
    omega
  refine ⟨rep.aligned,?_,rep.placed,rep.distinct,?_,?_,?_⟩
  · intro k inside none
    have other : k ≠ i := by
      rintro rfl
      rw [found] at none
      cases none
    rw [linked k inside,if_neg other]
    refine ⟨(rep.wide k inside none).1,?_⟩
    intro l insideL
    rw [Function.update_of_ne (fun same => other ((pageIndex insideL).mp same).1)]
    exact (rep.wide k inside none).2 l insideL
  · intro k inside t' foundK
    obtain ⟨old,isTable,userPages⟩ := rep.narrow k inside t' foundK
    rw [linked k inside]
    by_cases same : k = i
    · subst same
      rw [found,Option.some_inj] at foundK
      subst foundK
      refine ⟨user,by rw [if_pos rfl],?_⟩
      intro l insideL phys' flags' mapped isUser
      by_cases page : k*1024+l = k*1024+j
      · rw [page,Function.update_self,Option.some_inj] at mapped
        cases mapped
        exact userBit isUser
      · rw [Function.update_of_ne page] at mapped
        have set := userPages l insideL phys' flags' mapped isUser
        exact raised (by rw [isTable,set])
    · refine ⟨old,by rw [if_neg same,isTable],?_⟩
      intro l insideL phys' flags' mapped
      rw [Function.update_of_ne (fun page => same ((pageIndex insideL).mp page).1)] at mapped
      exact userPages l insideL phys' flags' mapped
  · intro k inside t' foundK l insideL
    rw [stored k inside t' foundK l insideL]
    by_cases page : k = i ∧ l = j
    · rw [if_pos page,pageEntry,page.1,page.2,Function.update_self]
    · rw [if_neg page,rep.pages k inside t' foundK l insideL,pageEntry,pageEntry,
        Function.update_of_ne (fun same => page ((pageIndex insideL).mp same))]
  · intro v phys' flags' mapped
    by_cases page : v = i*1024+j
    · rw [page,Function.update_self,Option.some_inj] at mapped
      cases mapped
      exact valid
    · rw [Function.update_of_ne page] at mapped
      exact rep.valid v phys' flags' mapped

/-- What `set_pde` leaves in memory. -/
theorem set_pde_correct (m : Memory) {dir : Word} (pt flags : Word) {i : Nat} (alignedDir : PageAligned dir)
    (inside : i < 1024) :
    (∀ q k, PageAligned q → k < 1024 → entry (set_pde physical m dir i pt flags) q k =
      if q = dir ∧ k = i then tableEntry pt (flags &&& PTE_USER ≠ 0#32) else entry m q k) ∧
      ∀ a, pageOf a ≠ pageOf dir → set_pde physical m dir i pt flags a = m a := by
  have plain : pt ||| PDE_PRESENT ||| PDE_RW = pt ||| 3#32 := by
    rw [BitVec.or_assoc,show PDE_PRESENT ||| PDE_RW = 3#32 by decide]
  have withUser : pt ||| 3#32 ||| PDE_USER = pt ||| 7#32 := by
    rw [BitVec.or_assoc,show 3#32 ||| PDE_USER = 7#32 by decide]
  simp only [set_pde,store32_physical,load32_physical,read32_write32,plain,withUser]
  by_cases user : flags &&& PTE_USER = 0#32
  · simp only [user,ne_eq,not_true_eq_false,if_false,decide_false,tableEntry]
    refine ⟨?_,fun a other => write_slot_off alignedDir inside other⟩
    intro q k aligned insideK
    rw [entry_write alignedDir aligned inside insideK]
    simp
  · simp only [user,ne_eq,not_false_eq_true,if_true,decide_true,tableEntry]
    refine ⟨?_,?_⟩
    · intro q k aligned insideK
      rw [entry_write alignedDir aligned inside insideK,entry_write alignedDir aligned inside insideK]
      by_cases same : q = dir ∧ k = i <;> simp [same]
    · intro a other
      rw [write_slot_off alignedDir inside other,write_slot_off alignedDir inside other]

/-- The 4 MiB frame of an entry of the identity map. -/
theorem wideEntry_base {i : Nat} (inside : i < 1024) : wideEntry i &&& 0xFFC00000#32 = BitVec.ofNat 32 (i*4194304) := by
  have value : (BitVec.ofNat 32 (i*4194304) : Word).toNat = i*4194304 := by
    rw [BitVec.toNat_ofNat]
    omega
  have index : ((BitVec.ofNat 32 (i*4194304) : Word) >>> 22).toNat = i := by
    rw [BitVec.toNat_ushiftRight,Nat.shiftRight_eq_div_pow,value]
    omega
  have offset : (BitVec.ofNat 32 (i*4194304) : Word) &&& 0x003FFFFF#32 = 0#32 := by
    apply BitVec.eq_of_toNat_eq
    rw [show (0x003FFFFF#32 : Word) = BitVec.ofNat 32 (2^22-1) by decide,and_low_toNat 22 (by decide),value,
      BitVec.toNat_ofNat]
    omega
  have identity := wideEntry_identity (BitVec.ofNat 32 (i*4194304))
  rwa [index,offset,BitVec.or_zero] at identity

theorem present_rw (w : Word) : w ||| PTE_PRESENT ||| PTE_RW = w ||| 3#32 := by
  rw [BitVec.or_assoc,show PTE_PRESENT ||| PTE_RW = 3#32 by decide]

/-- The entries that a 4 MiB page is split into. -/
theorem split_entry {i : Nat} (inside : i < 1024) (j : Nat) :
    ((wideEntry i &&& 0xFFC00000#32)+BitVec.ofNat 32 (j*PAGE_SIZE)) ||| PTE_PRESENT ||| PTE_RW =
      pageAddr (i*1024+j) ||| 3#32 := by
  have sum : BitVec.ofNat 32 (i*4194304)+BitVec.ofNat 32 (j*PAGE_SIZE) = pageAddr (i*1024+j) := by
    rw [pageAddr,PAGE_SIZE,← BitVec.ofNat_add,show i*4194304+j*4096 = (i*1024+j)*4096 by omega]
  rw [wideEntry_base inside,sum,present_rw]

/-- What `set_pte` leaves in memory. -/
theorem set_pte_correct (m : Memory) {pt : Word} (phys flags : Word) {j : Nat} (aligned : PageAligned pt) (inside : j < 1024) :
    (∀ q k, PageAligned q → k < 1024 → entry (set_pte physical m pt j phys flags) q k =
      if q = pt ∧ k = j then (phys &&& 0xFFFFF000#32) ||| flags else entry m q k) ∧
      ∀ a, pageOf a ≠ pageOf pt → set_pte physical m pt j phys flags a = m a := by
  simp only [set_pte,store32_physical]
  exact ⟨fun q k alignedQ insideK => entry_write aligned alignedQ inside insideK _ _,
    fun a other => write_slot_off aligned inside other⟩

/-- Raising the permission of a directory entry. -/
def raise (m : Memory) (dir : Word) (i : Nat) (pde flags : Word) : Memory :=
  if flags &&& PTE_USER ≠ 0#32 ∧ pde &&& PDE_USER = 0#32 then write32 m (slot dir i) (pde ||| PDE_USER) else m

theorem raise_correct {m : Memory} {dir t : Word} (flags : Word) {i : Nat} {old : Bool} (alignedDir : PageAligned dir)
    (alignedT : PageAligned t) (inside : i < 1024) (isTable : entry m dir i = tableEntry t old) :
    (∀ q k, PageAligned q → k < 1024 → entry (raise m dir i (tableEntry t old) flags) q k =
      if q = dir ∧ k = i then tableEntry t (old || decide (flags &&& PTE_USER ≠ 0#32)) else entry m q k) ∧
      ∀ a, pageOf a ≠ pageOf dir → raise m dir i (tableEntry t old) flags a = m a := by
  obtain ⟨_,_,_,userBit,_⟩ := tableEntry_flags alignedT old
  have cleared : tableEntry t old &&& PDE_USER = 0#32 ↔ old = false := by
    rw [← not_iff_not,Bool.not_eq_false]
    exact userBit
  have withUser : tableEntry t false ||| PDE_USER = tableEntry t true := by
    simp only [tableEntry,Bool.false_eq_true,if_false,if_true]
    rw [BitVec.or_assoc,show 3#32 ||| PDE_USER = 7#32 by decide]
  by_cases raised : flags &&& PTE_USER ≠ 0#32 ∧ tableEntry t old &&& PDE_USER = 0#32
  · rw [raise,if_pos raised]
    have wasClear := cleared.mp raised.2
    subst wasClear
    rw [withUser]
    refine ⟨?_,fun a other => write_slot_off alignedDir inside other⟩
    intro q k aligned insideK
    rw [entry_write alignedDir aligned inside insideK]
    simp [raised.1]
  · rw [raise,if_neg raised]
    refine ⟨?_,fun _ _ => rfl⟩
    intro q k aligned insideK
    by_cases same : q = dir ∧ k = i
    · rw [if_pos same,same.1,same.2,isTable]
      rw [not_and_or,cleared] at raised
      rcases raised with noUser | set
      · simp [not_not.mp noUser]
      · simp [(Bool.not_eq_false _).mp set]
    · rw [if_neg same]

section
variable {p : Phys} {dir : Word} (virt phys : Word) {flags : Word} {tables : Nat → Option Word} {map : PageMap}

/-- The branch of `paging_map_4k` that finds a table. -/
theorem map_table (rep : Represents p.mem dir tables map) (valid : ValidFlags flags) {t : Word}
    (found : tables (virt >>> 22).toNat = some t) :
    (paging_map_4k physical p dir virt phys flags).frames = p.frames ∧
      Represents (paging_map_4k physical p dir virt phys flags).mem dir tables
        (Function.update map (pageOf virt) (some (phys,flags))) ∧
      ∀ a, ¬ Owns dir tables (pageOf a) → (paging_map_4k physical p dir virt phys flags).mem a = p.mem a := by
  have insideI := dirIndex_lt virt
  have insideJ := tableIndex_lt virt
  obtain ⟨alignedT,notDir⟩ := rep.placed _ insideI t found
  obtain ⟨old,isTable,_⟩ := rep.narrow _ insideI t found
  obtain ⟨present,narrow,_,userBit,frame⟩ := tableEntry_flags alignedT old
  have isTable' : read32 p.mem (slot dir (virt >>> 22).toNat) = tableEntry t old := isTable
  have executed : paging_map_4k physical p dir virt phys flags =
      ⟨p.frames,set_pte physical (raise p.mem dir (virt >>> 22).toNat (tableEntry t old) flags) t
        ((virt >>> 12) &&& 0x3FF#32).toNat phys flags⟩ := by
    simp only [paging_map_4k,load32_physical,store32_physical,isTable',narrow,present,frame,raise]
    simp
  obtain ⟨raised,raisedOff⟩ := raise_correct flags rep.aligned alignedT insideI isTable
  obtain ⟨stored,storedOff⟩ := set_pte_correct
    (raise p.mem dir (virt >>> 22).toNat (tableEntry t old) flags) phys flags alignedT insideJ
  rw [executed]
  refine ⟨rfl,?_,?_⟩
  · rw [← pageOf_index virt]
    refine represents_update (old || decide (flags &&& PTE_USER ≠ 0#32)) rep insideI insideJ found valid
      ?_ ?_ (fun isUser => by simp [isUser]) ?_
    · intro k inside
      rw [stored dir k rep.aligned inside,if_neg (fun same => notDir same.1.symm),raised dir k rep.aligned inside]
      simp
    · intro wasUser
      rw [isTable] at wasUser
      simp [tableEntry_injective alignedT wasUser]
    · intro k inside t' foundK l insideL
      obtain ⟨alignedT',notDir'⟩ := rep.placed k inside t' foundK
      have sameTable : t' = t ↔ k = (virt >>> 22).toNat := by
        constructor
        · rintro rfl
          exact rep.distinct k inside _ insideI t' foundK found
        · rintro rfl
          rw [found,Option.some_inj] at foundK
          exact foundK.symm
      have offDir : ¬ (t' = dir ∧ l = (virt >>> 22).toNat) := fun same => notDir' same.1
      rw [stored t' l alignedT' insideL,raised t' l alignedT' insideL,if_neg offDir]
      simp only [sameTable]
  · intro a outside
    have offDir : pageOf a ≠ pageOf dir := fun same => outside (.inl same)
    have offTable : pageOf a ≠ pageOf t := fun same => outside (.inr ⟨_,insideI,t,found,same⟩)
    exact (storedOff a offTable).trans (raisedOff a offDir)

/-- The branch of `paging_map_4k` that splits a 4 MiB page. -/
theorem map_split (rep : Represents p.mem dir tables map) (valid : ValidFlags flags)
    (none : tables (virt >>> 22).toNat = none) {f : Nat} (inside : f < MAX_FRAMES)
    (fresh : ¬ Owns dir tables f) (alloc : pfa_alloc p.frames = (pageAddr f,mark_used p.frames f))
    (nonzero : pageAddr f ≠ 0#32) :
    (paging_map_4k physical p dir virt phys flags).frames = mark_used p.frames f ∧
      Represents (paging_map_4k physical p dir virt phys flags).mem dir
        (Function.update tables (virt >>> 22).toNat (some (pageAddr f)))
        (Function.update map (pageOf virt) (some (phys,flags))) ∧
      ∀ a, pageOf a ≠ pageOf dir → pageOf a ≠ f →
        (paging_map_4k physical p dir virt phys flags).mem a = p.mem a := by
  have insideI := dirIndex_lt virt
  have insideJ := tableIndex_lt virt
  have alignedT := pageAddr_aligned f
  have pageT : pageOf (pageAddr f) = f := pageOf_pageAddr inside
  have notDir : pageAddr f ≠ dir := fun same => fresh (.inl (by rw [← same,pageT]))
  obtain ⟨isWide,_⟩ := rep.wide _ insideI none
  have isWide' : read32 p.mem (slot dir (virt >>> 22).toNat) = wideEntry (virt >>> 22).toNat := isWide
  obtain ⟨_,wide,_,_⟩ := wideEntry_flags (virt >>> 22).toNat
  obtain ⟨filled,filledOff⟩ := fill_page alignedT p.mem (fun j => pageAddr ((virt >>> 22).toNat*1024+j) ||| 3#32)
  generalize split : Nat.fold 1024 (fun i _ m => write32 m (slot (pageAddr f) i)
    (pageAddr ((virt >>> 22).toNat*1024+i) ||| 3#32)) p.mem = n at filled filledOff
  have executed : paging_map_4k physical p dir virt phys flags =
      ⟨mark_used p.frames f,set_pte physical (set_pde physical n dir (virt >>> 22).toNat (pageAddr f) flags)
        (pageAddr f) ((virt >>> 12) &&& 0x3FF#32).toNat phys flags⟩ := by
    simp only [paging_map_4k,load32_physical,store32_physical,isWide',wide,alloc,nonzero,split_entry insideI,split]
    simp
  obtain ⟨linked,linkedOff⟩ := set_pde_correct n (pageAddr f) flags rep.aligned insideI
  -- Unmapped, the new table already means what the 4 MiB page meant.
  have entries : ∀ q k, PageAligned q → k < 1024 → q ≠ pageAddr f → entry n q k = entry p.mem q k := by
    intro q k alignedQ insideK other
    refine entry_congr alignedQ insideK (fun a inQ => filledOff a ?_)
    rw [inQ]
    exact fun same => other (page_ext alignedQ alignedT same)
  have tableOther : ∀ k < 1024, ∀ t', tables k = some t' → t' ≠ pageAddr f := by
    rintro k insideK t' foundK rfl
    exact fresh (.inr ⟨k,insideK,_,foundK,pageT.symm⟩)
  have splitRep := represents_split (t := pageAddr f) (decide (flags &&& PTE_USER ≠ 0#32))
    (n := set_pde physical n dir (virt >>> 22).toNat (pageAddr f) flags) rep insideI none alignedT (by rwa [pageT])
    (by
      intro j insideK
      rw [linked _ j alignedT insideK,if_neg (fun same => notDir same.1)]
      exact filled j insideK)
    (by
      intro k insideK
      rw [linked dir k rep.aligned insideK,entries dir k rep.aligned insideK notDir.symm]
      simp)
    (by
      intro k insideK t' foundK j insideL
      obtain ⟨alignedT',notDir'⟩ := rep.placed k insideK t' foundK
      rw [linked t' j alignedT' insideL,if_neg (fun same => notDir' same.1),
        entries t' j alignedT' insideL (tableOther k insideK t' foundK)])
  obtain ⟨stored,storedOff⟩ := set_pte_correct
    (set_pde physical n dir (virt >>> 22).toNat (pageAddr f) flags) phys flags alignedT insideJ
  rw [executed]
  refine ⟨rfl,?_,?_⟩
  · rw [← pageOf_index virt]
    refine represents_update (decide (flags &&& PTE_USER ≠ 0#32)) splitRep insideI insideJ
      (Function.update_self ..) valid ?_ ?_ (by simp) ?_
    · intro k insideK
      rw [stored dir k rep.aligned insideK,if_neg (fun same => notDir same.1.symm)]
      by_cases same : k = (virt >>> 22).toNat
      · rw [linked dir k rep.aligned insideK]
        simp [same]
      · rw [if_neg same]
    · intro wasUser
      rw [linked dir _ rep.aligned insideI,if_pos ⟨rfl,rfl⟩] at wasUser
      exact tableEntry_injective alignedT wasUser
    · intro k insideK t' foundK l insideL
      by_cases same : k = (virt >>> 22).toNat
      · rw [same,Function.update_self,Option.some_inj] at foundK
        subst foundK
        rw [stored _ l alignedT insideL]
        simp [same]
      · rw [Function.update_of_ne same] at foundK
        rw [stored t' l (rep.placed k insideK t' foundK).1 insideL,
          if_neg (fun h => tableOther k insideK t' foundK h.1),if_neg (fun h => same h.1)]
  · intro a offDir offTable
    have offTable' : pageOf a ≠ pageOf (pageAddr f) := by rwa [pageT]
    exact ((storedOff a offTable').trans (linkedOff a offDir)).trans (filledOff a offTable')

/-- `paging_map_4k` asks for a table exactly when the address has none. -/
theorem needs_table {m : Memory} {dir : Word} {tables : Nat → Option Word} {map : PageMap}
    (rep : Represents m dir tables map) (virt : Word) :
    (read32 m (slot dir (virt >>> 22).toNat) &&& PDE_PS ≠ 0#32 ∨
      read32 m (slot dir (virt >>> 22).toNat) &&& PDE_PRESENT = 0#32) ↔ tables (virt >>> 22).toNat = none := by
  have insideI := dirIndex_lt virt
  cases found : tables (virt >>> 22).toNat with
  | some t =>
    obtain ⟨old,isTable,_⟩ := rep.narrow _ insideI t found
    obtain ⟨present,narrow,_⟩ := tableEntry_flags (rep.placed _ insideI t found).1 old
    rw [show read32 m (slot dir (virt >>> 22).toNat) = tableEntry t old from isTable,narrow,present]
    simp
  | none =>
    obtain ⟨isWide,_⟩ := rep.wide _ insideI found
    rw [show read32 m (slot dir (virt >>> 22).toNat) = wideEntry (virt >>> 22).toNat from isWide,
      (wideEntry_flags (virt >>> 22).toNat).2.1]
    simp

/-- The call needs a table and there is no frame for it. -/
def TableFails (p : Phys) (dir virt : Word) : Prop :=
  let pde := read32 p.mem (slot dir (virt >>> 22).toNat)
  (pde &&& PDE_PS ≠ 0#32 ∨ pde &&& PDE_PRESENT = 0#32) ∧ (pfa_alloc p.frames).1 = 0#32

instance (p : Phys) (dir virt : Word) : Decidable (TableFails p dir virt) := inferInstanceAs (Decidable (_ ∧ _))

/-- A call of `paging_map_4k` that gets its table maps the page, and edits only
    the frames of the directory; one that does not changes nothing. -/
theorem map_correct (rep : Represents p.mem dir tables map) (valid : ValidFlags flags)
    (zero : is_used p.frames 0 = true) (owned : ∀ f, Owns dir tables f → is_used p.frames f = true) :
    (TableFails p dir virt ∧ paging_map_4k physical p dir virt phys flags = p) ∨
      ¬ TableFails p dir virt ∧ ∃ tables',
        Represents (paging_map_4k physical p dir virt phys flags).mem dir tables'
          (Function.update map (pageOf virt) (some (phys,flags))) ∧
        (∀ a, ¬ Owns dir tables' (pageOf a) → (paging_map_4k physical p dir virt phys flags).mem a = p.mem a) ∧
        ((tables' = tables ∧ (paging_map_4k physical p dir virt phys flags).frames = p.frames) ∨
          ∃ f < MAX_FRAMES, is_used p.frames f = false ∧ (∀ g < f, is_used p.frames g = true) ∧
            tables (virt >>> 22).toNat = none ∧
            tables' = Function.update tables (virt >>> 22).toNat (some (pageAddr f)) ∧
            (paging_map_4k physical p dir virt phys flags).frames = mark_used p.frames f) := by
  have insideI := dirIndex_lt virt
  cases found : tables (virt >>> 22).toNat with
  | some t =>
    have succeeds : ¬ TableFails p dir virt := by
      rintro ⟨needs,_⟩
      rw [(needs_table rep virt).mp needs] at found
      cases found
    obtain ⟨frames,mapped,off⟩ := map_table virt phys rep valid found
    exact .inr ⟨succeeds,tables,mapped,off,.inl ⟨rfl,frames⟩⟩
  | none =>
    obtain ⟨isWide,_⟩ := rep.wide _ insideI found
    have isWide' : read32 p.mem (slot dir (virt >>> 22).toNat) = wideEntry (virt >>> 22).toNat := isWide
    obtain ⟨_,wide,_,_⟩ := wideEntry_flags (virt >>> 22).toNat
    rcases pfa_alloc_cases p.frames with ⟨failed,_⟩ | ⟨f,inside,free,least,alloc⟩
    · refine .inl ⟨?_,?_⟩
      · simp only [TableFails,isWide',wide,failed]
        simp
      · simp only [paging_map_4k,load32_physical,isWide',wide,failed]
        simp
    · have nonzero := pfa_alloc_nonzero zero inside free
      have fresh : ¬ Owns dir tables f := by
        intro owns
        have used := owned f owns
        rw [free] at used
        cases used
      obtain ⟨frames,mapped,off⟩ := map_split virt phys rep valid found inside fresh alloc nonzero
      refine .inr ⟨by simp [TableFails,alloc,nonzero],_,mapped,?_,.inr ⟨f,inside,free,least,rfl,rfl,frames⟩⟩
      intro a outside
      refine off a (fun same => outside (.inl same)) (fun same => outside (.inr ⟨_,insideI,pageAddr f,?_,?_⟩))
      · rw [Function.update_self]
      · rw [same,pageOf_pageAddr inside]

end

end SoKernel.PageTables
