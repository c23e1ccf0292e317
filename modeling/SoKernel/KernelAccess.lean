import SoKernel.PageTables
import SoKernel.Process
import SoKernel.Stack

/-!
The kernel writes to the frames it has just allocated through pointers. This
module says what it takes for such a pointer to reach its frame, whichever
directory is loaded, and that the page table code then behaves as it does with
physical addresses.
-/
namespace SoKernel.KernelAccess
open SoKernel.Words SoKernel.Pages SoKernel.Pfa SoKernel.Paging SoKernel.PageTables SoKernel.Process
  SoKernel.Stack
set_option linter.unusedSimpArgs false

/-- Memory is `base` outside the pages `F`. -/
def Off (F : Nat → Prop) (base m : Memory) : Prop := ∀ a, ¬ F (pageOf a) → m a = base a

/-- Pointers into the pages `F` reach them, whatever has been written there. -/
def Sees (x : Access) (base : Memory) (F : Nat → Prop) : Prop :=
  ∀ m, Off F base m → ∀ a, F (pageOf a) → x m a = a

/-- The frame that the allocator hands out next, if any, is one of `F`. -/
def Next (F : Nat → Prop) (s : Frames) : Prop :=
  ∀ f < MAX_FRAMES, is_used s f = false → (∀ g < f, is_used s g = true) → F f

theorem physical_sees (base : Memory) (F : Nat → Prop) : Sees physical base F := fun _ _ _ _ => rfl

section
variable {x : Access} {base : Memory} {F : Nat → Prop} {m : Memory}

theorem off_write_slot (off : Off F base m) {p : Word} (aligned : PageAligned p) (inF : F (pageOf p)) {i : Nat}
    (inside : i < 1024) (v : Word) : Off F base (write32 m (slot p i) v) := by
  intro a outside
  have other : pageOf a ≠ pageOf p := fun same => outside (same ▸ inF)
  rw [write_slot_off aligned inside other]
  exact off a outside

theorem pageOf_slot {p : Word} (aligned : PageAligned p) {i : Nat} (inside : i < 1024) : pageOf (slot p i) = pageOf p :=
  inWord_slot aligned inside (.inl rfl)

variable (sees : Sees x base F)

include sees in
theorem store32_slot (off : Off F base m) {p : Word} (aligned : PageAligned p) (inF : F (pageOf p)) {i : Nat}
    (inside : i < 1024) (v : Word) : store32 x m (slot p i) v = write32 m (slot p i) v := by
  rw [store32,sees m off _ (by rwa [pageOf_slot aligned inside])]

include sees in
theorem load32_slot (off : Off F base m) {p : Word} (aligned : PageAligned p) (inF : F (pageOf p)) {i : Nat}
    (inside : i < 1024) : load32 x m (slot p i) = entry m p i := by
  rw [load32,sees m off _ (by rwa [pageOf_slot aligned inside]),entry]

/-! ### Byte loops -/

theorem pageOf_add {s : Word} {n i : Nat} (fits : s.toNat % 4096+n ≤ 4096) (inside : i < n) :
    pageOf (s+BitVec.ofNat 32 i) = pageOf s := by
  have := s.isLt
  simp only [pageOf,BitVec.toNat_add,BitVec.toNat_ofNat]
  omega

include sees in
/-- A loop that stores bytes into one page changes nothing else. -/
theorem stores_off (v : Nat → Memory → Byte) (off : Off F base m) {s : Word} {n : Nat}
    (fits : s.toNat % 4096+n ≤ 4096) (inF : F (pageOf s)) :
    Off F base (n.fold (fun i _ m => store8 x m (s+BitVec.ofNat 32 i) (v i m)) m) ∧
      ∀ a, pageOf a ≠ pageOf s → n.fold (fun i _ m => store8 x m (s+BitVec.ofNat 32 i) (v i m)) m a = m a := by
  refine fold_invariant (fun _ t => Off F base t ∧ ∀ a, pageOf a ≠ pageOf s → t a = m a) ⟨off,fun _ _ => rfl⟩ ?_
  rintro i inside t ⟨offT,same⟩
  have page := pageOf_add fits inside
  have reached : x t (s+BitVec.ofNat 32 i) = s+BitVec.ofNat 32 i := sees t offT _ (by rwa [page])
  have outside : ∀ a, pageOf a ≠ pageOf s → store8 x t (s+BitVec.ofNat 32 i) (v i t) a = t a := by
    intro a other
    have ne : a ≠ s+BitVec.ofNat 32 i := fun same => other (by rw [same,page])
    simp [store8,write8,reached,ne]
  refine ⟨?_,fun a other => (outside a other).trans (same a other)⟩
  intro a notF
  rw [outside a (fun same => notF (same ▸ inF))]
  exact offT a notF

include sees in
theorem memset_off (off : Off F base m) {s : Word} {n : Nat} (c : Byte) (fits : s.toNat % 4096+n ≤ 4096)
    (inF : F (pageOf s)) :
    Off F base (memset x m s c n) ∧ ∀ a, pageOf a ≠ pageOf s → memset x m s c n a = m a :=
  stores_off sees (fun _ _ => c) off fits inF

include sees in
theorem memcpy_off (off : Off F base m) {dest : Word} {n : Nat} (src : Word) (fits : dest.toNat % 4096+n ≤ 4096)
    (inF : F (pageOf dest)) :
    Off F base (memcpy x m dest src n) ∧ ∀ a, pageOf a ≠ pageOf dest → memcpy x m dest src n a = m a :=
  stores_off sees (fun i m => load8 x m (src+BitVec.ofNat 32 i)) off fits inF

include sees in
/-- Pointers into a stack that is a page reach it. -/
theorem push_words_sees {p : Word} (aligned : PageAligned p) (inF : F (pageOf p)) (words : List Word) {j : Nat}
    (inside : j+words.length ≤ 1024) (off : Off F base m) :
    push_words x m (slot p (j+words.length)) words = push_all m (slot p (j+words.length)) words := by
  induction words generalizing m with
  | nil => rfl
  | cons v rest ih =>
    simp only [List.length_cons] at inside ⊢
    have insideJ : j+rest.length < 1024 := by omega
    rw [push_words,push_all,← Nat.add_assoc,slot_pred,store32_slot sees off aligned inF insideJ]
    exact ih (by omega) (off_write_slot off aligned inF insideJ v)

include sees in
/-- The words are on top of the stack, and only its page has changed. -/
theorem push_words_stacked {p : Word} (aligned : PageAligned p) (inF : F (pageOf p)) (words : List Word) {j : Nat}
    (inside : j+words.length ≤ 1024) (off : Off F base m) :
    (push_words x m (slot p (j+words.length)) words).2 = slot p j ∧
      Stacked (push_words x m (slot p (j+words.length)) words).1 p j words.reverse ∧
      ∀ a, pageOf a ≠ pageOf p → (push_words x m (slot p (j+words.length)) words).1 a = m a := by
  obtain ⟨pointer,stacked,same⟩ := push_all_slot aligned m words inside
  rw [push_words_sees sees aligned inF words inside off]
  exact ⟨pointer,stacked,fun a other => same a (fun page => absurd page other)⟩

/-! ### Page tables -/

include sees in
theorem fill_sees (off : Off F base m) {p : Word} (aligned : PageAligned p) (inF : F (pageOf p)) (v : Nat → Word) :
    Nat.fold 1024 (fun i _ m => store32 x m (slot p i) (v i)) m =
        Nat.fold 1024 (fun i _ m => store32 physical m (slot p i) (v i)) m ∧
      Off F base (Nat.fold 1024 (fun i _ m => store32 physical m (slot p i) (v i)) m) := by
  refine fold_congr (fun _ t => Off F base t) off ?_
  intro i inside t offT
  exact ⟨store32_slot sees offT aligned inF inside (v i),off_write_slot offT aligned inF inside (v i)⟩

include sees in
theorem create_sees {p : Phys} (off : Off F base p.mem) (next : Next F p.frames) :
    paging_create_kernel_dir x p = paging_create_kernel_dir physical p := by
  rcases pfa_alloc_cases p.frames with ⟨failed,_⟩ | ⟨f,inside,free,least,found⟩
  · simp [paging_create_kernel_dir,failed]
  · have filled := fill_sees sees off (pageAddr_aligned f) (by rw [pageOf_pageAddr inside]; exact next f inside free least)
      (fun i => BitVec.ofNat 32 i <<< 22 ||| PDE_PRESENT ||| PDE_RW ||| PDE_PS)
    simp only [paging_create_kernel_dir,found,filled.1]

include sees in
theorem set_pde_sees (off : Off F base m) {dir : Word} (aligned : PageAligned dir) (inF : F (pageOf dir)) {i : Nat}
    (inside : i < 1024) (pt flags : Word) :
    set_pde x m dir i pt flags = set_pde physical m dir i pt flags ∧ Off F base (set_pde physical m dir i pt flags) := by
  have offW := off_write_slot off aligned inF inside (pt ||| PDE_PRESENT ||| PDE_RW)
  simp only [set_pde,store32_slot sees off aligned inF inside,store32_physical,load32_physical]
  split
  · rw [load32_slot sees offW aligned inF inside,store32_slot sees offW aligned inF inside]
    exact ⟨rfl,off_write_slot offW aligned inF inside _⟩
  · exact ⟨rfl,offW⟩

include sees in
theorem set_pte_sees (off : Off F base m) {pt : Word} (aligned : PageAligned pt) (inF : F (pageOf pt)) {j : Nat}
    (inside : j < 1024) (phys flags : Word) :
    set_pte x m pt j phys flags = set_pte physical m pt j phys flags := by
  rw [set_pte,set_pte,store32_slot sees off aligned inF inside]
  rfl

include sees in
/-- On a directory in reach, `paging_map_4k` does what it does with physical addresses. -/
theorem map_sees {p : Phys} {dir : Word} {tables : Nat → Option Word} {map : PageMap} (virt phys flags : Word)
    (off : Off F base p.mem) (rep : Represents p.mem dir tables map) (owned : ∀ f, Owns dir tables f → F f)
    (next : Next F p.frames) :
    paging_map_4k x p dir virt phys flags = paging_map_4k physical p dir virt phys flags := by
  have insideI := dirIndex_lt virt
  have insideJ := tableIndex_lt virt
  have dirF : F (pageOf dir) := owned _ (.inl rfl)
  have pde : load32 x p.mem (slot dir (virt >>> 22).toNat) = read32 p.mem (slot dir (virt >>> 22).toNat) :=
    load32_slot sees off rep.aligned dirF insideI
  cases found : tables (virt >>> 22).toNat with
  | some t =>
    obtain ⟨alignedT,_⟩ := rep.placed _ insideI t found
    obtain ⟨old,isTable,_⟩ := rep.narrow _ insideI t found
    obtain ⟨present,narrow,_,_,frame⟩ := tableEntry_flags alignedT old
    have isTable' : read32 p.mem (slot dir (virt >>> 22).toNat) = tableEntry t old := isTable
    have tableF : F (pageOf t) := owned _ (.inr ⟨_,insideI,t,found,rfl⟩)
    have offRaised := off_write_slot off rep.aligned dirF insideI (tableEntry t old ||| PDE_USER)
    simp only [paging_map_4k,pde,load32_physical,isTable',narrow,present,frame,
      store32_slot sees off rep.aligned dirF insideI,store32_physical]
    simp only [ne_eq,not_true_eq_false,if_false,show ¬ (1#32 : Word) = 0#32 by decide]
    split
    · rw [set_pte_sees sees offRaised alignedT tableF insideJ]
    · rw [set_pte_sees sees off alignedT tableF insideJ]
  | none =>
    obtain ⟨isWide,_⟩ := rep.wide _ insideI found
    have isWide' : read32 p.mem (slot dir (virt >>> 22).toNat) = wideEntry (virt >>> 22).toNat := isWide
    obtain ⟨_,wide,_,_⟩ := wideEntry_flags (virt >>> 22).toNat
    rcases pfa_alloc_cases p.frames with ⟨failed,_⟩ | ⟨f,inside,free,least,alloc⟩
    · simp only [paging_map_4k,pde,load32_physical,isWide',wide,failed]
      simp
    · have alignedT := pageAddr_aligned f
      have tableF : F (pageOf (pageAddr f)) := by rw [pageOf_pageAddr inside]; exact next f inside free least
      obtain ⟨filled,offFilled⟩ := fill_sees sees off alignedT tableF (fun i =>
        ((wideEntry (virt >>> 22).toNat &&& 0xFFC00000#32)+BitVec.ofNat 32 (i*PAGE_SIZE)) ||| PTE_PRESENT ||| PTE_RW)
      obtain ⟨linked,offLinked⟩ := set_pde_sees sees offFilled rep.aligned dirF insideI (pageAddr f) flags
      have isSet : (0x80#32 : Word) ≠ 0#32 := by decide
      simp only [paging_map_4k,pde,load32_physical,isWide',wide,alloc,if_pos isSet,filled,linked,
        set_pte_sees sees offLinked alignedT tableF insideJ]

end

end SoKernel.KernelAccess
