import SoKernel.Loading

/-!
`process_create` through pointers. The kernel copies a program under the directory that
is loaded. When its pointers reach the frames it is given and the bytes of the file, the
call does what it does with physical addresses.
-/
namespace SoKernel.PagedLoading
open SoKernel.Words SoKernel.Pages SoKernel.Pfa SoKernel.Paging SoKernel.PageTables SoKernel.Stack SoKernel.Fs
  SoKernel.Process SoKernel.KernelAccess SoKernel.AddressSpace SoKernel.FrameCount SoKernel.Loading
set_option linter.unusedSimpArgs false

/-- Pointers to the bytes `R` reach them, whatever has been written to the pages `F`. -/
def Reads (x : Access) (base : Memory) (F : Nat → Prop) (R : Word → Prop) : Prop :=
  ∀ m, Off F base m → ∀ a, R a → x m a = a

/-- The bytes of a file. -/
def InFile (prog_data prog_size a : Word) : Prop := ∃ n < prog_size.toNat, a = prog_data+BitVec.ofNat 32 n

/-! ### Byte loops -/

section
variable {x : Access} {base : Memory} {F : Nat → Prop} {m : Memory} (sees : Sees x base F)
include sees

theorem stores_sees {v w : Nat → Memory → Byte} (off : Off F base m) {s : Word} {n : Nat}
    (fits : s.toNat % 4096+n ≤ 4096) (inF : F (pageOf s)) (same : ∀ i < n, ∀ t, Off F base t → v i t = w i t) :
    n.fold (fun i _ m => store8 x m (s+BitVec.ofNat 32 i) (v i m)) m =
      n.fold (fun i _ m => store8 physical m (s+BitVec.ofNat 32 i) (w i m)) m := by
  refine (fold_congr (fun _ t => Off F base t) off ?_).1
  intro i inside t offT
  have page := pageOf_add fits inside
  have reached : x t (s+BitVec.ofNat 32 i) = s+BitVec.ofNat 32 i := sees t offT _ (by rwa [page])
  refine ⟨by rw [store8,store8,reached,same i inside t offT]; rfl,?_⟩
  intro a outside
  have other : a ≠ s+BitVec.ofNat 32 i := fun same => outside (by rwa [same,page])
  rw [store8,write8]
  exact (if_neg other).trans (offT a outside)

theorem memset_sees (off : Off F base m) {s : Word} {n : Nat} (c : Byte) (fits : s.toNat % 4096+n ≤ 4096)
    (inF : F (pageOf s)) : memset x m s c n = memset physical m s c n :=
  stores_sees sees off fits inF (fun _ _ _ _ => rfl)

/-- A frame is cleared. -/
theorem memset_page (off : Off F base m) {f : Nat} (inside : f < MAX_FRAMES) (inF : F f) :
    memset x m (pageAddr f) 0#8 PAGE_SIZE = memset physical m (pageAddr f) 0#8 PAGE_SIZE := by
  have start : (pageAddr f).toNat % 4096 = 0 := pageAddr_aligned f
  exact memset_sees sees off 0#8 (by rw [start,PAGE_SIZE]) (by rwa [pageOf_pageAddr inside])

theorem memcpy_sees {R : Word → Prop} (reads : Reads x base F R) (off : Off F base m) {dest src : Word} {n : Nat}
    (fits : dest.toNat % 4096+n ≤ 4096) (inF : F (pageOf dest)) (source : ∀ i < n, R (src+BitVec.ofNat 32 i)) :
    memcpy x m dest src n = memcpy physical m dest src n := by
  refine stores_sees sees off fits inF (fun i inside t offT => ?_)
  rw [load8,load8,reads t offT _ (source i inside)]
  rfl

/-- A page of the program. -/
theorem copy_page_sees {prog_data prog_size : Word} (reads : Reads x base F (InFile prog_data prog_size)) {i : Nat}
    (begins : 4096*i < prog_size.toNat) {f : Nat} (inside : f < MAX_FRAMES) (inF : F f) (off : Off F base m) :
    copy_page x prog_data prog_size i (pageAddr f) m = copy_page physical prog_data prog_size i (pageAddr f) m := by
  have bound := prog_size.isLt
  have page : pageOf (pageAddr f) = f := pageOf_pageAddr inside
  have start : (pageAddr f).toNat % 4096 = 0 := pageAddr_aligned f
  have rest : (prog_size-BitVec.ofNat 32 (i*PAGE_SIZE)).toNat = prog_size.toNat-i*4096 := by
    rw [BitVec.toNat_sub,BitVec.toNat_ofNat]
    simp only [PAGE_SIZE]
    omega
  have length := copy_len_cases (prog_size-BitVec.ofNat 32 (i*PAGE_SIZE))
  simp only [rest] at length
  clear rest
  simp only [copy_page]
  generalize (if BitVec.ofNat 32 PAGE_SIZE < prog_size-BitVec.ofNat 32 (i*PAGE_SIZE) then BitVec.ofNat 32 PAGE_SIZE
    else prog_size-BitVec.ofNat 32 (i*PAGE_SIZE)) = len at length
  have source : ∀ n < len.toNat, InFile prog_data prog_size (prog_data+BitVec.ofNat 32 (i*PAGE_SIZE)+BitVec.ofNat 32 n) := by
    intro n below
    refine ⟨i*4096+n,by omega,?_⟩
    rw [BitVec.add_assoc,← BitVec.ofNat_add]
  have fits : (pageAddr f).toNat % 4096+len.toNat ≤ 4096 := by omega
  have copied := memcpy_sees sees reads off fits (by rwa [page]) source
  obtain ⟨offCopy,_⟩ := memcpy_off sees off (prog_data+BitVec.ofNat 32 (i*PAGE_SIZE)) fits (by rwa [page])
  rw [copied] at offCopy ⊢
  split
  · rename_i short
    have short' : len.toNat < 4096 := by simpa [BitVec.lt_def,PAGE_SIZE] using short
    have tail : pageOf (pageAddr f+len) = f := by
      have offset := pageOf_add (s := pageAddr f) (n := 4096) (by omega) short'
      rwa [BitVec.ofNat_toNat,BitVec.setWidth_eq,page] at offset
    refine memset_sees sees offCopy 0#8 ?_ (by rwa [tail])
    rw [BitVec.toNat_add]
    simp only [PAGE_SIZE]
    omega
  · rfl

/-- The allocator is asked for a table in the same cases. -/
theorem map_requests_sees {p : Phys} {dir : Word} {tables : Nat → Option Word} {map : PageMap} (off : Off F base p.mem)
    (rep : Represents p.mem dir tables map) (owned : ∀ f, Owns dir tables f → F f) (virt : Word) :
    map_requests x p dir virt = map_requests physical p dir virt := by
  have pde : load32 x p.mem (slot dir (virt >>> 22).toNat) = entry p.mem dir (virt >>> 22).toNat :=
    load32_slot sees off rep.aligned (owned _ (.inl rfl)) (dirIndex_lt virt)
  rw [map_requests,map_requests,pde,load32_physical]
  rfl

end

/-! ### The loop over the pages -/

section
variable {x : Access} {F : Nat → Prop} {base p : Phys} {kstack dir : Word} {pages : Nat} {got : List Word}
  {tables : Nat → Option Word} {map : PageMap} {n : Nat} {prog_data prog_size : Word}
  (sees : Sees x base.mem F) (reads : Reads x base.mem F (InFile prog_data prog_size))
include sees reads

/-- A page that has been copied goes where it goes with physical addresses, and the allocator
    is asked for a table in the same cases. -/
theorem load_page_sees (build : Building F base kstack dir pages got tables map p) (handed : Handed F (n+2) p.frames)
    (begins : 4096*got.length < prog_size.toNat) {f : Nat} (inside : f < MAX_FRAMES) (free : is_used p.frames f = false)
    (least : ∀ g < f, is_used p.frames g = true) :
    load_page x dir prog_data prog_size got.length (pageAddr f) ⟨mark_used p.frames f,p.mem⟩ =
        load_page physical dir prog_data prog_size got.length (pageAddr f) ⟨mark_used p.frames f,p.mem⟩ ∧
      ∀ virt, map_requests x ⟨mark_used p.frames f,copy_page x prog_data prog_size got.length (pageAddr f) p.mem⟩ dir virt =
        map_requests physical ⟨mark_used p.frames f,copy_page physical prog_data prog_size got.length (pageAddr f) p.mem⟩ dir
          virt := by
  have page : pageOf (pageAddr f) = f := pageOf_pageAddr inside
  obtain ⟨inF,later⟩ := handed f inside free least
  have taken := building_take build inside free inF
  have member : pageAddr f ∈ got ++ [pageAddr f] := by simp
  have took : Took base.frames (mark_used p.frames f) f := by simpa only [page] using taken.userTaken _ member
  have apart : ¬ Owns dir tables f := by simpa only [page] using (taken.userApart _ member).1
  have copied := copy_page_off sees prog_data prog_size got.length inside inF (building_off taken)
  rw [copy_page_sees sees reads begins inside inF (building_off taken)] at copied
  have written := building_write taken took apart copied
  have owned : ∀ g, Owns dir tables g → F g := fun g owns => written.within g (written.owned g owns)
  simp only [load_page]
  rw [copy_page_sees sees reads begins inside inF (building_off taken)]
  exact ⟨map_sees sees _ _ _ (building_off written) written.rep owned (handed_next later),
    fun virt => map_requests_sees sees (building_off written) written.rep owned virt⟩

theorem load_pages_sees (zero : is_used base.frames 0 = true) (bound : pages ≤ 1048576)
    (begins : ∀ i < pages, 4096*i < prog_size.toNat) (left : Nat)
    (build : Building F base kstack dir pages got tables map p) (handed : Handed F (n+2*left) p.frames)
    (count : got.length+left = pages) (mapped : Mapped got map p.frames) :
    load_pages x dir prog_data prog_size left got.length got p =
        load_pages physical dir prog_data prog_size left got.length got p ∧
      load_requests x dir prog_data prog_size left got.length p =
        load_requests physical dir prog_data prog_size left got.length p := by
  induction left generalizing got tables map p with
  | zero => exact ⟨rfl,rfl⟩
  | succ left ih =>
    rw [load_pages,load_pages,load_requests,load_requests]
    rcases pfa_alloc_cases p.frames with ⟨failed,full⟩ | ⟨f,inside,free,least,found⟩
    · simp only [failed,if_true]
      exact ⟨trivial,trivial⟩
    · have nonzero := pfa_alloc_nonzero (build.grows 0 zero) inside free
      simp only [found,nonzero,if_false]
      obtain ⟨same,asks⟩ := load_page_sees (n := n+2*left) sees reads build handed (begins _ (by omega)) inside free least
      obtain ⟨tables',map',built,rest,mappedNext⟩ :=
        load_page_building (n := n+2*left) sees zero prog_data prog_size build handed inside free least (by omega) bound
          mapped
      rw [same] at built rest mappedNext ⊢
      have lengthNext : (got ++ [pageAddr f]).length = got.length+1 := by simp
      obtain ⟨loads,requests⟩ := ih built rest (by rw [lengthNext]; omega) mappedNext
      rw [lengthNext] at loads requests
      exact ⟨loads,by rw [asks,requests]⟩

end

/-! ### The whole call -/

/-- The words of the first kernel stack. -/
theorem push_initial {x : Access} {base m : Memory} {F : Nat → Prop} (sees : Sees x base F) {p : Word}
    (aligned : PageAligned p) (inF : F (pageOf p)) (trampoline : Word) (off : Off F base m) :
    push_words x m (p+BitVec.ofNat 32 PAGE_SIZE) (initial_stack trampoline) =
      push_words physical m (p+BitVec.ofNat 32 PAGE_SIZE) (initial_stack trampoline) := by
  have top : p+BitVec.ofNat 32 PAGE_SIZE = slot p (1013+(initial_stack trampoline).length) := rfl
  rw [top,push_words_sees sees aligned inF (initial_stack trampoline) (by simp [initial_stack]) off,
    push_words_sees (physical_sees base F) aligned inF (initial_stack trampoline) (by simp [initial_stack]) off]

/-- The end of the call. -/
theorem finish_sees {x : Access} {F : Nat → Prop} {base p : Phys} {kstack dir : Word} {pages : Nat} {got : List Word}
    {tables : Nat → Option Word} {map : PageMap} (sees : Sees x base.mem F) (zero : is_used base.frames 0 = true)
    (trampoline : Word) (build : Building F base kstack dir pages got tables map p) (handed : Handed F 2 p.frames)
    {f : Nat} (inside : f < MAX_FRAMES) (free : is_used p.frames f = false)
    (least : ∀ g < f, is_used p.frames g = true) :
    let mapped := paging_map_4k physical ⟨mark_used p.frames f,memset physical p.mem (pageAddr f) 0#8 PAGE_SIZE⟩ dir
      USER_STACK_VIRT (pageAddr f) (PTE_PRESENT ||| PTE_RW ||| PTE_USER)
    paging_map_4k x ⟨mark_used p.frames f,memset x p.mem (pageAddr f) 0#8 PAGE_SIZE⟩ dir USER_STACK_VIRT (pageAddr f)
        (PTE_PRESENT ||| PTE_RW ||| PTE_USER) = mapped ∧
      push_words x mapped.mem (kstack+BitVec.ofNat 32 PAGE_SIZE) (initial_stack trampoline) =
        push_words physical mapped.mem (kstack+BitVec.ofNat 32 PAGE_SIZE) (initial_stack trampoline) ∧
      map_requests x ⟨mark_used p.frames f,memset x p.mem (pageAddr f) 0#8 PAGE_SIZE⟩ dir USER_STACK_VIRT =
        map_requests physical ⟨mark_used p.frames f,memset physical p.mem (pageAddr f) 0#8 PAGE_SIZE⟩ dir
          USER_STACK_VIRT := by
  intro mapped
  have page : pageOf (pageAddr f) = f := pageOf_pageAddr inside
  have start : (pageAddr f).toNat % 4096 = 0 := pageAddr_aligned f
  obtain ⟨inF,later⟩ := handed f inside free least
  have taken := building_take build inside free inF
  have member : pageAddr f ∈ got ++ [pageAddr f] := by simp
  have took : Took base.frames (mark_used p.frames f) f := by simpa only [page] using taken.userTaken _ member
  have apart : ¬ Owns dir tables f := by simpa only [page] using (taken.userApart _ member).1
  have clears := memset_page sees (building_off build) inside inF
  obtain ⟨_,cleared⟩ := memset_off sees (building_off build) 0#8 (n := PAGE_SIZE) (by rw [start,PAGE_SIZE]) (by rwa [page])
  rw [page,clears] at cleared
  have written := building_write taken took apart cleared
  have owned : ∀ g, Owns dir tables g → F g := fun g owns => written.within g (written.owned g owns)
  have maps := map_sees sees USER_STACK_VIRT (pageAddr f) (PTE_PRESENT ||| PTE_RW ||| PTE_USER) (building_off written)
    written.rep owned (handed_next later)
  have here : pageOf USER_STACK_VIRT = 0xBFFFF := by decide
  obtain ⟨_,_,built,_⟩ := building_map sees zero written later member (building_unmapped build inside free) (.inr here)
  rw [maps] at built
  refine ⟨by rw [clears]; exact maps,?_,?_⟩
  · exact push_initial sees built.stackAligned (built.within _ built.stackTaken) trampoline (building_off built)
  · rw [clears]
    exact map_requests_sees sees (building_off written) written.rep owned USER_STACK_VIRT

/-- The part of `process_create` after the program has been found, and what it asks for. -/
theorem create_image_sees {x : Access} {F : Nat → Prop} {k : Kernel} (sees : Sees x k.phys.mem F)
    (zero : is_used k.phys.frames 0 = true) {prog_data prog_size : Word}
    (reads : Reads x k.phys.mem F (InFile prog_data prog_size))
    (handed : Handed F (most_frames (code_pages prog_size)) k.phys.frames) (trampoline : Word) (slot : Slot)
    (name : List Byte) :
    create_image x trampoline slot prog_data prog_size name k =
        create_image physical trampoline slot prog_data prog_size name k ∧
      create_requests x prog_data prog_size k = create_requests physical prog_data prog_size k := by
  simp only [create_image,create_requests]
  rcases pfa_alloc_cases k.phys.frames with ⟨failed,_⟩ | ⟨f,inside,free,least,found⟩
  · simp only [failed,if_true]
    exact ⟨trivial,trivial⟩
  have page : pageOf (pageAddr f) = f := pageOf_pageAddr inside
  have start : (pageAddr f).toNat % 4096 = 0 := pageAddr_aligned f
  obtain ⟨inF,later⟩ := handed f inside free least
  obtain ⟨off,_⟩ := memset_off sees (fun _ _ => rfl) 0#8 (n := PAGE_SIZE) (by rw [start,PAGE_SIZE]) (by rwa [page])
  have dir := create_sees (p := ⟨mark_used k.phys.frames f,memset x k.phys.mem (pageAddr f) 0#8 PAGE_SIZE⟩) sees off
    (handed_next later)
  obtain ⟨_,started⟩ := building_start (n := 2+2*code_pages prog_size) sees zero (code_pages prog_size) handed inside free
    least
  simp only [found,if_neg (pfa_alloc_nonzero zero inside free)]
  rw [memset_page sees (fun _ _ => rfl) inside inF] at dir started ⊢
  rw [dir] at started ⊢
  rcases started with ⟨failed,_⟩ | ⟨gotDir,build,rest⟩
  · simp only [failed,if_true]
    exact ⟨trivial,trivial⟩
  simp only [if_neg gotDir]
  obtain ⟨loaded,asked⟩ := load_pages_sees (n := 2) sees reads zero (code_pages_le prog_size) (code_pages_begins prog_size)
    (code_pages prog_size) build rest (by simp) (.inr (by simp))
  obtain ⟨tables,map,built,left,_⟩ :=
    load_pages_building (n := 2) sees zero prog_data prog_size (code_pages_le prog_size) (code_pages prog_size) build
      rest (by simp) (.inr (by simp))
  simp only [List.length_nil] at loaded asked built left
  rw [loaded] at built left
  rw [loaded,asked]
  generalize load_pages physical _ prog_data prog_size _ 0 [] _ = loaded at built left ⊢
  by_cases complete : loaded.complete = true
  · simp only [complete,Bool.not_true,Bool.false_eq_true,if_false]
    rcases pfa_alloc_cases loaded.phys.frames with ⟨failed,_⟩ | ⟨g,insideG,freeG,leastG,foundG⟩
    · simp only [failed,if_true]
      exact ⟨trivial,trivial⟩
    · simp only [foundG,if_neg (pfa_alloc_nonzero (built.grows 0 zero) insideG freeG)]
      obtain ⟨mapped,pushed,requests⟩ := finish_sees sees zero trampoline built left insideG freeG leastG
      rw [mapped,pushed,requests]
      exact ⟨rfl,rfl⟩
  · simp only [Bool.not_eq_true] at complete
    simp only [complete,Bool.not_false,if_true]
    exact ⟨trivial,trivial⟩

end SoKernel.PagedLoading
