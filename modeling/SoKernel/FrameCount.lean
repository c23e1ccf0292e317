import SoKernel.AddressSpace
import Mathlib.Data.Finset.Card

/-!
How many frames `process_create` takes. However the kernel reaches memory, a call
takes frames one after another, each time the lowest free one: at least three
when it succeeds, and it fails for want of memory only when none is left.
-/
namespace SoKernel.FrameCount
open SoKernel.Words SoKernel.Pages SoKernel.Pfa SoKernel.Paging SoKernel.PageTables SoKernel.Fs SoKernel.Process
  SoKernel.AddressSpace
set_option linter.unusedSimpArgs false

/-- `n` frames have been taken, each time the lowest free one. -/
inductive Takes (s : Frames) : Nat → Frames → Prop
  | refl : Takes s 0 s
  | step {n : Nat} {t : Frames} {f : Nat} (before : Takes s n t) (inside : f < MAX_FRAMES)
      (free : is_used t f = false) (least : ∀ g < f, is_used t g = true) : Takes s (n+1) (mark_used t f)

theorem takes_trans {s t u : Frames} {m n : Nat} (first : Takes s m t) (second : Takes t n u) : Takes s (m+n) u := by
  induction second with
  | refl => exact first
  | step _ inside free least ih => exact .step ih inside free least

theorem takes_grows {s t : Frames} {n : Nat} (takes : Takes s n t) : Grows s t := by
  induction takes with
  | refl => exact grows_refl s
  | step _ _ _ _ ih => exact grows_trans ih (grows_mark_used _ _)

/-- Frames are taken from the front of the first run of free frames. -/
theorem takes_run {s t : Frames} {n first len : Nat} (takes : Takes s n t) (fits : n ≤ len)
    (below : ∀ f < first, is_used s f = true) (free : FreeRun s first len) :
    (∀ f < first+n, is_used t f = true) ∧ FreeRun t (first+n) (len-n) := by
  induction takes with
  | refl => exact ⟨below,free⟩
  | @step n t f before insideF freeF least ih =>
    obtain ⟨used,run⟩ := ih (by omega)
    -- The lowest free frame is the first one of the run.
    have isFirst : f = first+n := by
      rcases Nat.lt_trichotomy f (first+n) with lt | same | gt
      · rw [used f lt] at freeF
        cases freeF
      · exact same
      · have lower := least (first+n) gt
        rw [run (first+n) (le_refl _) (by omega)] at lower
        cases lower
    refine ⟨?_,?_⟩
    · intro g lt
      by_cases same : g = f
      · simp [same]
      · simp [used g (by omega)]
    · intro g low high
      have free := run g (by omega) (by omega)
      simp [free,show g ≠ f by omega]

/-- The number of frames in use. -/
def usedCount (s : Frames) : Nat := ((Finset.range MAX_FRAMES).filter (fun f => is_used s f = true)).card

theorem usedCount_le (s : Frames) : usedCount s ≤ MAX_FRAMES := by
  refine (Finset.card_filter_le _ _).trans ?_
  rw [Finset.card_range]

theorem usedCount_mark_used {s : Frames} {f : Nat} (inside : f < MAX_FRAMES) (free : is_used s f = false) :
    usedCount (mark_used s f) = usedCount s+1 := by
  have added : (Finset.range MAX_FRAMES).filter (fun g => is_used (mark_used s f) g = true) =
      insert f ((Finset.range MAX_FRAMES).filter (fun g => is_used s g = true)) := by
    ext g
    simp only [Finset.mem_filter,Finset.mem_insert,Finset.mem_range,is_used_mark_used,Bool.or_eq_true,decide_eq_true_eq]
    constructor
    · rintro ⟨insideG,same | used⟩
      · exact .inl same
      · exact .inr ⟨insideG,used⟩
    · rintro (rfl | ⟨insideG,used⟩)
      · exact ⟨inside,.inl rfl⟩
      · exact ⟨insideG,.inr used⟩
  rw [usedCount,added,Finset.card_insert_of_notMem (by simp [free]),usedCount]

theorem takes_usedCount {s t : Frames} {n : Nat} (takes : Takes s n t) : usedCount t = usedCount s+n := by
  induction takes with
  | refl => exact (Nat.add_zero _).symm
  | step _ inside free _ ih => rw [usedCount_mark_used inside free,ih,Nat.add_assoc]

/-- The number of free frames. -/
def freeCount (s : Frames) : Nat := MAX_FRAMES-usedCount s

theorem full_iff (s : Frames) : Full s ↔ usedCount s = MAX_FRAMES := by
  have all := Finset.card_filter_eq_iff (s := Finset.range MAX_FRAMES) (p := fun f => is_used s f = true)
  rw [Finset.card_range] at all
  rw [usedCount,all]
  exact forall_congr' (fun f => imp_congr Finset.mem_range.symm Iff.rfl)

theorem freeCount_eq (s : Frames) :
    freeCount s = ((Finset.range MAX_FRAMES).filter (fun f => is_used s f = false)).card := by
  have both := Finset.card_filter_add_card_filter_not (s := Finset.range MAX_FRAMES) (fun f => is_used s f = true)
  simp only [Finset.card_range,Bool.not_eq_true] at both
  rw [freeCount,usedCount]
  omega

/-- A run of free frames is among the free frames. -/
theorem freeCount_run {s : Frames} {start count : Nat} (free : FreeRun s start count) (inside : start+count ≤ MAX_FRAMES) :
    count ≤ freeCount s := by
  rw [freeCount_eq,show count = (Finset.Ico start (start+count)).card by simp]
  refine Finset.card_le_card (fun f member => ?_)
  rw [Finset.mem_Ico] at member
  exact Finset.mem_filter.mpr ⟨Finset.mem_range.mpr (by omega),free f member.1 member.2⟩

theorem freeCount_exact {s : Frames} {start count : Nat} (inside : start+count ≤ MAX_FRAMES)
    (free : ∀ f, is_used s f = false ↔ start ≤ f ∧ f < start+count) : freeCount s = count := by
  have same : (Finset.range MAX_FRAMES).filter (fun f => is_used s f = false) = Finset.Ico start (start+count) := by
    ext f
    rw [Finset.mem_filter,Finset.mem_range,Finset.mem_Ico,free]
    omega
  rw [freeCount_eq,same,Nat.card_Ico]
  omega

/-- Between `low` and `high` frames have been taken. -/
def Between (low high : Nat) (s t : Frames) : Prop := ∃ n, low ≤ n ∧ n ≤ high ∧ Takes s n t

theorem between_refl (s : Frames) : Between 0 0 s s := ⟨0,le_refl _,le_refl _,.refl⟩

theorem between_trans {a b c d : Nat} {s t u : Frames} (first : Between a b s t) (second : Between c d t u) :
    Between (a+c) (b+d) s u := by
  obtain ⟨m,lowM,highM,takesM⟩ := first
  obtain ⟨n,lowN,highN,takesN⟩ := second
  exact ⟨m+n,by omega,by omega,takes_trans takesM takesN⟩

theorem between_le {a b c d : Nat} {s t : Frames} (low : c ≤ a) (high : b ≤ d) (between : Between a b s t) :
    Between c d s t := by
  obtain ⟨n,lowN,highN,takes⟩ := between
  exact ⟨n,by omega,by omega,takes⟩

theorem between_grows {a b : Nat} {s t : Frames} (between : Between a b s t) : Grows s t := by
  obtain ⟨_,_,_,takes⟩ := between
  exact takes_grows takes

/-! ### What each part of a call takes -/

theorem alloc_some {s : Frames} (got : (pfa_alloc s).1 ≠ 0#32) : Between 1 1 s (pfa_alloc s).2 := by
  rcases pfa_alloc_cases s with ⟨failed,_⟩ | ⟨f,inside,free,least,found⟩
  · rw [failed] at got
    exact absurd rfl got
  · rw [found]
    exact ⟨1,le_refl _,le_refl _,.step .refl inside free least⟩

theorem alloc_between (s : Frames) : Between 0 1 s (pfa_alloc s).2 := by
  rcases pfa_alloc_cases s with ⟨failed,_⟩ | ⟨f,inside,free,least,found⟩
  · rw [failed]
    exact between_le (le_refl _) (by omega) (between_refl s)
  · rw [found]
    exact ⟨1,by omega,le_refl _,.step .refl inside free least⟩

theorem alloc_none {s : Frames} (zero : is_used s 0 = true) (failed : (pfa_alloc s).1 = 0#32) :
    (pfa_alloc s).2 = s ∧ Full s := by
  rcases pfa_alloc_cases s with ⟨same,full⟩ | ⟨f,inside,free,_,found⟩
  · exact ⟨by rw [same],full⟩
  · rw [found] at failed
    exact absurd failed (pfa_alloc_nonzero zero inside free)

theorem usedCount_alloc {s : Frames} (got : (pfa_alloc s).1 ≠ 0#32) : usedCount (pfa_alloc s).2 = usedCount s+1 := by
  obtain ⟨n,low,high,takes⟩ := alloc_some got
  rw [takes_usedCount takes]
  omega

theorem map_between (x : Access) (p : Phys) (dir virt phys flags : Word) :
    Between 0 1 p.frames (paging_map_4k x p dir virt phys flags).frames := by
  rcases map_frames x p dir virt phys flags with same | alloc
  · rw [same]
    exact between_le (le_refl _) (by omega) (between_refl _)
  · rw [alloc]
    exact alloc_between p.frames

theorem load_pages_between (x : Access) (dir prog_data prog_size : Word) (left i : Nat) (got : List Word) {p : Phys}
    (zero : is_used p.frames 0 = true) :
    Between 0 (2*left) p.frames (load_pages x dir prog_data prog_size left i got p).phys.frames ∧
      ((load_pages x dir prog_data prog_size left i got p).complete = false →
        Full (load_pages x dir prog_data prog_size left i got p).phys.frames) := by
  induction left generalizing i got p with
  | zero => exact ⟨between_refl _,by intro early; cases early⟩
  | succ left ih =>
    rw [load_pages]
    by_cases failed : (pfa_alloc p.frames).1 = 0#32
    · obtain ⟨same,full⟩ := alloc_none zero failed
      simp only [failed,if_true,same]
      exact ⟨between_le (le_refl _) (by omega) (between_refl _),fun _ => full⟩
    · simp only [failed,if_false]
      have taken := between_trans (alloc_some failed) (map_between x
        ⟨(pfa_alloc p.frames).2,copy_page x prog_data prog_size i (pfa_alloc p.frames).1 p.mem⟩ dir
        (USER_CODE_VIRT+BitVec.ofNat 32 (i*PAGE_SIZE)) (pfa_alloc p.frames).1 (PTE_PRESENT ||| PTE_RW ||| PTE_USER))
      obtain ⟨rest,full⟩ := ih (i+1) (got ++ [(pfa_alloc p.frames).1]) (between_grows taken 0 zero)
      exact ⟨between_le (by omega) (by omega) (between_trans taken rest),full⟩

/-- What a call takes: at least three frames when it creates a process. -/
structure Uses (c : Creation) (k : Kernel) (pages : Nat) : Prop where
  most : Between 0 (most_frames pages) k.phys.frames c.kernel.phys.frames
  least : c.slot ≠ none → Between 3 (most_frames pages) k.phys.frames c.kernel.phys.frames

theorem create_image_uses (x : Access) (trampoline : Word) (slot : Slot) (prog_data prog_size : Word) (name : List Byte)
    {k : Kernel} (zero : is_used k.phys.frames 0 = true) :
    Uses (create_image x trampoline slot prog_data prog_size name k) k (code_pages prog_size) ∧
      ((create_image x trampoline slot prog_data prog_size name k).slot = none →
        Full (create_image x trampoline slot prog_data prog_size name k).kernel.phys.frames) := by
  rw [create_image]
  by_cases noStack : (pfa_alloc k.phys.frames).1 = 0#32
  · obtain ⟨same,full⟩ := alloc_none zero noStack
    simp only [noStack,if_true,same]
    exact ⟨⟨between_le (le_refl _) (by simp only [most_frames]; omega) (between_refl _),fun h => absurd rfl h⟩,fun _ => full⟩
  simp only [noStack,if_false,create_dir,create_frames]
  have one := alloc_some noStack
  have zeroOne : is_used (pfa_alloc k.phys.frames).2 0 = true := grows_pfa_alloc _ 0 zero
  by_cases noDir : (pfa_alloc (pfa_alloc k.phys.frames).2).1 = 0#32
  · obtain ⟨same,full⟩ := alloc_none zeroOne noDir
    have frames : (paging_create_kernel_dir x
        ⟨(pfa_alloc k.phys.frames).2,memset x k.phys.mem (pfa_alloc k.phys.frames).1 0#8 PAGE_SIZE⟩).2.frames =
          (pfa_alloc k.phys.frames).2 := (create_frames ..).trans same
    rw [if_pos noDir]
    refine ⟨⟨?_,fun h => absurd rfl h⟩,fun _ => ?_⟩
    · simp only [frames]
      exact between_le (by omega) (by simp only [most_frames]; omega) one
    · simp only [frames]
      exact full
  simp only [noDir,if_false]
  have two := between_trans one (alloc_some noDir)
  have zeroTwo : is_used (pfa_alloc (pfa_alloc k.phys.frames).2).2 0 = true := grows_pfa_alloc _ 0 zeroOne
  obtain ⟨loading,early⟩ := load_pages_between x (pfa_alloc (pfa_alloc k.phys.frames).2).1 prog_data prog_size
    (code_pages prog_size) 0 [] (p := (paging_create_kernel_dir x
      ⟨(pfa_alloc k.phys.frames).2,memset x k.phys.mem (pfa_alloc k.phys.frames).1 0#8 PAGE_SIZE⟩).2)
    (by rw [create_frames]; exact zeroTwo)
  rw [create_frames] at loading
  generalize load_pages x _ prog_data prog_size _ 0 [] _ = loaded at loading early
  have three := between_trans two loading
  have zeroThree : is_used loaded.phys.frames 0 = true := between_grows loading 0 zeroTwo
  by_cases complete : loaded.complete = true
  · simp only [complete,Bool.not_true,Bool.false_eq_true,if_false]
    by_cases noUser : (pfa_alloc loaded.phys.frames).1 = 0#32
    · obtain ⟨same,full⟩ := alloc_none zeroThree noUser
      simp only [noUser,if_true,same]
      exact ⟨⟨between_le (by omega) (by simp only [most_frames]; omega) three,fun h => absurd rfl h⟩,fun _ => full⟩
    · simp only [noUser,if_false]
      have all := between_trans (between_trans three (alloc_some noUser)) (map_between x
        ⟨(pfa_alloc loaded.phys.frames).2,memset x loaded.phys.mem (pfa_alloc loaded.phys.frames).1 0#8 PAGE_SIZE⟩
        (pfa_alloc (pfa_alloc k.phys.frames).2).1 USER_STACK_VIRT (pfa_alloc loaded.phys.frames).1
        (PTE_PRESENT ||| PTE_RW ||| PTE_USER))
      exact ⟨⟨between_le (by omega) (by simp only [most_frames]; omega) all,
        fun _ => between_le (by omega) (by simp only [most_frames]; omega) all⟩,by intro none; cases none⟩
  · have stopped : loaded.complete = false := by simpa using complete
    simp only [stopped,Bool.not_false,if_true]
    exact ⟨⟨between_le (by omega) (by simp only [most_frames]; omega) three,fun h => absurd rfl h⟩,fun _ => early stopped⟩

theorem process_create_uses (x : Access) (trampoline : Word) (fs : FsInstance) (name : List Byte) {k : Kernel}
    (zero : is_used k.phys.frames 0 = true) :
    Uses (process_create x trampoline fs name k) k (program_pages x fs name k) := by
  have unused : Uses (.failed k) k (program_pages x fs name k) :=
    ⟨between_le (le_refl _) (Nat.zero_le _) (between_refl _),fun created => absurd rfl created⟩
  rw [process_create]
  split
  · exact unused
  · simp only []
    split
    · exact unused
    · exact (create_image_uses x trampoline _ _ _ name zero).1

/-! ### Calls that succeed -/

theorem create_image_pages (x : Access) (trampoline : Word) (slot : Slot) (prog_data prog_size : Word) (name : List Byte)
    (k : Kernel) :
    (create_image x trampoline slot prog_data prog_size name k).code_pages ≤ code_pages prog_size ∧
      ((create_image x trampoline slot prog_data prog_size name k).slot ≠ none →
        (create_image x trampoline slot prog_data prog_size name k).code_pages = code_pages prog_size) := by
  simp only [create_image]
  split
  · exact ⟨Nat.zero_le _,fun created => absurd rfl created⟩
  split
  · exact ⟨Nat.zero_le _,fun created => absurd rfl created⟩
  split
  · exact ⟨le_refl _,fun _ => rfl⟩
  split
  · exact ⟨le_refl _,fun _ => rfl⟩
  · exact ⟨le_refl _,fun _ => rfl⟩

theorem process_create_pages (x : Access) (trampoline : Word) (fs : FsInstance) (name : List Byte) (k : Kernel) :
    (process_create x trampoline fs name k).code_pages ≤ program_pages x fs name k ∧
      ((process_create x trampoline fs name k).slot ≠ none →
        (process_create x trampoline fs name k).code_pages = program_pages x fs name k) := by
  rw [process_create]
  split
  · exact ⟨Nat.zero_le _,fun created => absurd rfl created⟩
  · simp only []
    split
    · exact ⟨Nat.zero_le _,fun created => absurd rfl created⟩
    · exact create_image_pages x trampoline _ _ _ name k

/-- With a dead slot, a program and a long enough first run of free frames the call
    succeeds, with the first of these frames as kernel stack, and frames are left. -/
theorem process_create_succeeds (x : Access) (trampoline : Word) (fs : FsInstance) (name : List Byte) {k : Kernel}
    {first len : Nat} (positive : 0 < first) (below : ∀ f < first, is_used k.phys.frames f = true)
    (free : FreeRun k.phys.frames first len) (inside : first+len ≤ MAX_FRAMES)
    (long : most_frames (program_pages x fs name k) < len) {slot : Slot} (found : free_slot k.procs = some slot)
    (program : ¬ fs_find (seen x k.phys.mem) fs name < 0) :
    (process_create x trampoline fs name k).slot ≠ none ∧
      ¬ Full (process_create x trampoline fs name k).kernel.phys.frames ∧
      (process_create x trampoline fs name k).kernel_stack = pageAddr first := by
  have zero : is_used k.phys.frames 0 = true := below 0 positive
  have room : ¬ Full (process_create x trampoline fs name k).kernel.phys.frames := by
    obtain ⟨n,_,most,takes⟩ := (process_create_uses x trampoline fs name zero).most
    obtain ⟨_,left⟩ := takes_run takes (by omega) below free
    intro full
    have used := full (first+n) (by omega)
    rw [left (first+n) (le_refl _) (by omega)] at used
    cases used
  have created : (process_create x trampoline fs name k).slot ≠ none := by
    intro none
    simp only [process_create,found,program,if_false] at room none
    exact room ((create_image_uses x trampoline slot _ _ name zero).2 none)
  refine ⟨created,room,?_⟩
  obtain ⟨i,slotIs⟩ := Option.ne_none_iff_exists'.mp created
  obtain ⟨_,_,_,_,_,stack,_⟩ := (process_create_table x trampoline fs name k).filled i slotIs
  rw [stack,pfa_alloc_eq (by omega) (free first (le_refl _) (by omega)) below]

/-- While frames are left, each code page of a new process is a user page. -/
theorem image_user_page {c : Creation} {k : Kernel} (image : Image c k) (gotDir : c.user_dir ≠ 0#32)
    (created : c.slot ≠ none) (room : ¬ Full c.kernel.phys.frames) {v : Nat} (inside : v < c.code_pages)
    (notStack : v ≠ 0xBFFFF) (bound : v < 1048576) :
    ∃ a ∈ user_frames c, ∃ t, translate c.kernel.phys.mem c.user_dir (pageAddr v) = some t ∧ t.user = true ∧
      pageOf t.phys = pageOf a ∧ Took k.phys.frames c.kernel.phys.frames (pageOf a) := by
  obtain ⟨_,tables,map,space,mapped⟩ := image.dir gotDir
  rw [← image.complete created] at inside
  have code : c.code_frames[v]? = some c.code_frames[v] := List.getElem?_eq_getElem inside
  rcases mapped with full | mapped
  · exact absurd full room
  · have here := mapped v _ notStack code
    have member := (space.mapped _ _ _ here).1
    refine ⟨_,member,_,translate_correct space.rep (pageAddr v),?_,?_,space.userTaken _ member⟩
    · simp only [view,pageOf_pageAddr bound,here]
      decide
    · simp only [view,pageOf_pageAddr bound,here]
      exact pageOf_join _ _

/-- What such a call leaves: a directory through which each code page is a user page
    in a frame that was free before. -/
theorem process_create_user_page (x : Access) (trampoline : Word) (fs : FsInstance) (name : List Byte) {k : Kernel}
    (image : Image (process_create x trampoline fs name k) k) {first len : Nat} (positive : 0 < first)
    (below : ∀ f < first, is_used k.phys.frames f = true) (free : FreeRun k.phys.frames first len)
    (inside : first+len ≤ MAX_FRAMES) (long : most_frames (program_pages x fs name k) < len) {slot : Slot}
    (found : free_slot k.procs = some slot) (program : ¬ fs_find (seen x k.phys.mem) fs name < 0) {v : Nat}
    (code : v < program_pages x fs name k) (notStack : v ≠ 0xBFFFF) (bound : v < 1048576) :
    (process_create x trampoline fs name k).slot ≠ none ∧ (process_create x trampoline fs name k).user_dir ≠ 0#32 ∧
      (process_create x trampoline fs name k).kernel_stack = pageAddr first ∧
      ∃ t, translate (process_create x trampoline fs name k).kernel.phys.mem
          (process_create x trampoline fs name k).user_dir (pageAddr v) = some t ∧ t.user = true ∧
        is_used k.phys.frames (pageOf t.phys) = false := by
  obtain ⟨created,room,stack⟩ :=
    process_create_succeeds x trampoline fs name positive below free inside long found program
  obtain ⟨i,slotIs⟩ := Option.ne_none_iff_exists'.mp created
  obtain ⟨_,_,_,gotDir,_⟩ := (process_create_table x trampoline fs name k).filled i slotIs
  rw [← (process_create_pages x trampoline fs name k).2 created] at code
  obtain ⟨a,_,t,translated,user,page,took⟩ := image_user_page image gotDir created room code notStack bound
  exact ⟨created,gotDir,stack,t,translated,user,by rw [page]; exact took.1⟩

end SoKernel.FrameCount
