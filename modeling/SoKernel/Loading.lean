import SoKernel.FrameCount

/-!
What `process_create` asks the allocator for, and what it has built when every
request was granted: each code page in a frame of its own with the bytes of the
file, mapped in order, with a table for every 1024 pages.
-/
namespace SoKernel.Loading
open SoKernel.Words SoKernel.Pages SoKernel.Pfa SoKernel.Paging SoKernel.PageTables SoKernel.Fs SoKernel.Process
  SoKernel.KernelAccess SoKernel.AddressSpace SoKernel.FrameCount
set_option linter.unusedSimpArgs false

/-! ### Requests -/

/-- The answer of the allocator to `paging_map_4k`, if the call asks for a table. -/
def map_requests (x : Access) (p : Phys) (dir virt : Word) : List Word :=
  let pde := load32 x p.mem (slot dir (virt >>> 22).toNat)
  if pde &&& PDE_PS ≠ 0#32 ∨ pde &&& PDE_PRESENT = 0#32 then [(pfa_alloc p.frames).1] else []

/-- The answers of the allocator during the loop over the code pages. -/
def load_requests (x : Access) (user_dir prog_data prog_size : Word) : Nat → Nat → Phys → List Word
  | 0, _, _ => []
  | left+1, i, p =>
    let code_frame := pfa_alloc p.frames
    if code_frame.1 = 0#32 then [code_frame.1]
    else
      let copied : Phys := ⟨code_frame.2,copy_page x prog_data prog_size i code_frame.1 p.mem⟩
      code_frame.1 :: (map_requests x copied user_dir (USER_CODE_VIRT+BitVec.ofNat 32 (i*PAGE_SIZE)) ++
        load_requests x user_dir prog_data prog_size left (i+1)
          (load_page x user_dir prog_data prog_size i code_frame.1 { p with frames := code_frame.2 }))

/-- The answers of the allocator to `process_create`, once the program has been found. -/
def create_requests (x : Access) (prog_data prog_size : Word) (k : Kernel) : List Word :=
  let kstack := pfa_alloc k.phys.frames
  if kstack.1 = 0#32 then [kstack.1]
  else
    let dir := paging_create_kernel_dir x ⟨kstack.2,memset x k.phys.mem kstack.1 0#8 PAGE_SIZE⟩
    if dir.1 = 0#32 then [kstack.1,dir.1]
    else
      let loaded := load_pages x dir.1 prog_data prog_size (code_pages prog_size) 0 [] dir.2
      let loading := kstack.1 :: dir.1 :: load_requests x dir.1 prog_data prog_size (code_pages prog_size) 0 dir.2
      if !loaded.complete then loading
      else
        let stack := pfa_alloc loaded.phys.frames
        if stack.1 = 0#32 then loading ++ [stack.1]
        else
          let cleared : Phys := ⟨stack.2,memset x loaded.phys.mem stack.1 0#8 PAGE_SIZE⟩
          loading ++ stack.1 :: map_requests x cleared dir.1 USER_STACK_VIRT

/-- The answers of the allocator to a call of `process_create`. -/
def process_create_requests (x : Access) (fs : FsInstance) (name : List Byte) (k : Kernel) : List Word :=
  match free_slot k.procs with
  | none => []
  | some _ =>
    let m := seen x k.phys.mem
    let fs_idx := fs_find m fs name
    if fs_idx < 0 then [] else create_requests x (fs_file_data m fs fs_idx) (fs_file_size m fs fs_idx) k

/-! ### Bytes of a page -/

/-- A loop that stores one byte after another, each from what it does not overwrite. -/
theorem stores_contents {m : Memory} {s : Word} {n : Nat} (v : Nat → Memory → Byte) (small : n ≤ 2^32)
    (stable : ∀ i < n, ∀ t : Memory, (∀ a, (∀ j < n, a ≠ s+BitVec.ofNat 32 j) → t a = m a) → v i t = v i m) :
    (∀ j < n, n.fold (fun i _ m => store8 physical m (s+BitVec.ofNat 32 i) (v i m)) m (s+BitVec.ofNat 32 j) = v j m) ∧
      ∀ a, (∀ j < n, a ≠ s+BitVec.ofNat 32 j) →
        n.fold (fun i _ m => store8 physical m (s+BitVec.ofNat 32 i) (v i m)) m a = m a := by
  refine fold_invariant (fun i (t : Memory) => (∀ j < i, t (s+BitVec.ofNat 32 j) = v j m) ∧
    ∀ a, (∀ j < n, a ≠ s+BitVec.ofNat 32 j) → t a = m a) ⟨by omega,fun _ _ => rfl⟩ ?_
  rintro i inside t ⟨before,off⟩
  refine ⟨?_,?_⟩
  · intro j below
    by_cases same : j = i
    · subst same
      simp [store8,physical,write8,stable j inside t off]
    · have other : s+BitVec.ofNat 32 j ≠ s+BitVec.ofNat 32 i := by
        intro equal
        have values := congrArg BitVec.toNat (BitVec.add_right_inj s |>.mp equal)
        rw [BitVec.toNat_ofNat,BitVec.toNat_ofNat,Nat.mod_eq_of_lt (by omega),Nat.mod_eq_of_lt (by omega)] at values
        exact same values
      have kept : store8 physical t (s+BitVec.ofNat 32 i) (v i t) (s+BitVec.ofNat 32 j) = t (s+BitVec.ofNat 32 j) :=
        if_neg other
      rw [kept,before j (by omega)]
  · intro a outside
    have kept : store8 physical t (s+BitVec.ofNat 32 i) (v i t) a = t a := if_neg (outside i inside)
    rw [kept,off a outside]

theorem memset_contents (m : Memory) (s : Word) (c : Byte) {n : Nat} (small : n ≤ 2^32) :
    (∀ j < n, memset physical m s c n (s+BitVec.ofNat 32 j) = c) ∧
      ∀ a, (∀ j < n, a ≠ s+BitVec.ofNat 32 j) → memset physical m s c n a = m a :=
  stores_contents (fun _ _ => c) small (fun _ _ _ _ => rfl)

/-- Copying between ranges that do not overlap. -/
theorem memcpy_contents {m : Memory} {dest src : Word} {n : Nat} (small : n ≤ 2^32)
    (apart : ∀ i < n, ∀ j < n, src+BitVec.ofNat 32 i ≠ dest+BitVec.ofNat 32 j) :
    (∀ j < n, memcpy physical m dest src n (dest+BitVec.ofNat 32 j) = m (src+BitVec.ofNat 32 j)) ∧
      ∀ a, (∀ j < n, a ≠ dest+BitVec.ofNat 32 j) → memcpy physical m dest src n a = m a :=
  stores_contents (fun i m => load8 physical m (src+BitVec.ofNat 32 i)) small
    (fun i inside _ off => off _ (apart i inside))

/-- A byte of the file, and zero after its end. -/
def file_byte (m : Memory) (prog_data prog_size : Word) (n : Nat) : Byte :=
  if n < prog_size.toNat then m (prog_data+BitVec.ofNat 32 n) else 0#8

/-- `copy_len` of `process_create`: a page, or what is left. -/
theorem copy_len_cases (left : Word) :
    let len := if BitVec.ofNat 32 PAGE_SIZE < left then BitVec.ofNat 32 PAGE_SIZE else left
    (4096 ≤ left.toNat ∧ len.toNat = 4096) ∨ (left.toNat < 4096 ∧ len.toNat = left.toNat) := by
  have page : (BitVec.ofNat 32 PAGE_SIZE).toNat = 4096 := by decide
  by_cases long : BitVec.ofNat 32 PAGE_SIZE < left
  · rw [if_pos long]
    rw [BitVec.lt_def,page] at long
    exact .inl ⟨by omega,page⟩
  · rw [if_neg long]
    rw [BitVec.lt_def,page] at long
    rcases Nat.lt_or_eq_of_le (Nat.le_of_not_lt long) with less | same
    · exact .inr ⟨less,rfl⟩
    · exact .inl ⟨by omega,same⟩

theorem frame_offset {f : Nat} (inside : f < MAX_FRAMES) {o : Nat} (inPage : o < 4096) :
    pageOf (pageAddr f+BitVec.ofNat 32 o) = f := by
  have start : (pageAddr f).toNat % 4096 = 0 := pageAddr_aligned f
  rw [pageOf_add (show (pageAddr f).toNat % 4096+4096 ≤ 4096 by omega) inPage,pageOf_pageAddr inside]

/-- A page of the program holds its part of the file. -/
theorem copy_page_contents {m : Memory} {prog_data prog_size : Word} {i f : Nat} (inside : f < MAX_FRAMES)
    (begins : 4096*i < prog_size.toNat)
    (apart : ∀ n < prog_size.toNat, pageOf (prog_data+BitVec.ofNat 32 n) ≠ f) {o : Nat} (inPage : o < 4096) :
    copy_page physical prog_data prog_size i (pageAddr f) m (pageAddr f+BitVec.ofNat 32 o) =
      file_byte m prog_data prog_size (i*4096+o) := by
  have bound := prog_size.isLt
  have rest : (prog_size-BitVec.ofNat 32 (i*PAGE_SIZE)).toNat = prog_size.toNat-i*4096 := by
    rw [BitVec.toNat_sub,BitVec.toNat_ofNat]
    simp only [PAGE_SIZE]
    omega
  have length := copy_len_cases (prog_size-BitVec.ofNat 32 (i*PAGE_SIZE))
  simp only [rest] at length
  clear rest
  simp only [copy_page]
  generalize (if BitVec.ofNat 32 PAGE_SIZE < prog_size-BitVec.ofNat 32 (i*PAGE_SIZE) then BitVec.ofNat 32 PAGE_SIZE
    else prog_size-BitVec.ofNat 32 (i*PAGE_SIZE)) = len at length
  have source : ∀ n, prog_data+BitVec.ofNat 32 (i*PAGE_SIZE)+BitVec.ofNat 32 n = prog_data+BitVec.ofNat 32 (i*4096+n) := by
    intro n
    rw [BitVec.add_assoc,← BitVec.ofNat_add]
  have copied : ∀ j < len.toNat, memcpy physical m (pageAddr f) (prog_data+BitVec.ofNat 32 (i*PAGE_SIZE)) len.toNat
      (pageAddr f+BitVec.ofNat 32 j) = m (prog_data+BitVec.ofNat 32 (i*4096+j)) := by
    intro j below
    rw [← source]
    refine (memcpy_contents (by omega) ?_).1 j below
    intro n insideN l insideL same
    have clash := apart (i*4096+n) (by omega)
    rw [← source,same,frame_offset inside (by omega)] at clash
    exact clash rfl
  generalize memcpy physical m (pageAddr f) (prog_data+BitVec.ofNat 32 (i*PAGE_SIZE)) len.toNat = c at copied
  -- The tail begins right after what was copied.
  have tail : ∀ j, pageAddr f+len+BitVec.ofNat 32 j = pageAddr f+BitVec.ofNat 32 (len.toNat+j) := by
    intro j
    rw [BitVec.ofNat_add,BitVec.ofNat_toNat,BitVec.setWidth_eq,BitVec.add_assoc]
  obtain ⟨zeros,kept⟩ := memset_contents c (pageAddr f+len) 0#8 (show 4096-len.toNat ≤ 2^32 by omega)
  have page : (BitVec.ofNat 32 PAGE_SIZE).toNat = 4096 := by decide
  by_cases written : o < len.toNat
  · have byte : file_byte m prog_data prog_size (i*4096+o) = m (prog_data+BitVec.ofNat 32 (i*4096+o)) :=
      if_pos (by omega)
    rw [byte,← copied o written]
    split
    · refine kept _ (fun j below same => ?_)
      rw [tail] at same
      have := offset_inj (by omega) (by omega) same
      omega
    · rfl
  · have byte : file_byte m prog_data prog_size (i*4096+o) = 0#8 := if_neg (by omega)
    rw [byte,if_pos (by rw [BitVec.lt_def,page]; omega)]
    have found := zeros (o-len.toNat) (by omega)
    rwa [tail,Nat.add_sub_cancel' (by omega)] at found

/-! ### Loading without failure -/

/-- The code pages so far have been loaded and nothing has failed: there is a table
    for every 1024 pages, the pages are mapped in order, and their frames hold the
    file, unless one of the frames taken was part of the file. -/
structure Progress (prog_data prog_size : Word) (base : Phys) (kstack dir : Word) (pages : Nat) (got : List Word)
    (tables : Nat → Option Word) (map : PageMap) (p : Phys) : Prop
    extends Building (Free base.frames) base kstack dir pages got tables map p where
  tabled : ∀ i < 1024, tables i ≠ none ↔ 1024*i < got.length
  paged : ∀ v, map v = (got[v]?).map (fun a => (a,PTE_PRESENT ||| PTE_RW ||| PTE_USER))
  count : usedCount p.frames = usedCount base.frames+2+got.length+(got.length+1023)/1024
  filled : (∀ n < prog_size.toNat, ¬ Took base.frames p.frames (pageOf (prog_data+BitVec.ofNat 32 n))) →
    ∀ v a, got[v]? = some a → ∀ o < 4096,
      p.mem (a+BitVec.ofNat 32 o) = file_byte base.mem prog_data prog_size (v*4096+o)

section
variable {prog_data prog_size : Word} {base p : Phys} {kstack dir : Word} {pages : Nat} {got : List Word}
  {tables : Nat → Option Word} {map : PageMap}

/-- The table that a code page needs. -/
theorem code_table {i : Nat} (inside : i < 1048576) :
    ((USER_CODE_VIRT+BitVec.ofNat 32 (i*PAGE_SIZE)) >>> 22).toNat = i/1024 := by
  have sum : USER_CODE_VIRT+BitVec.ofNat 32 (i*PAGE_SIZE) = pageAddr i := BitVec.zero_add _
  rw [sum,BitVec.toNat_ushiftRight,Nat.shiftRight_eq_div_pow,pageAddr_toNat inside]
  omega

theorem map_requests_eq {q : Phys} (rep : Represents q.mem dir tables map) (virt : Word) :
    map_requests physical q dir virt =
      if tables (virt >>> 22).toNat = none then [(pfa_alloc q.frames).1] else [] := by
  rw [map_requests]
  exact if_congr (needs_table rep virt) rfl rfl

theorem alloc_full {s : Frames} (full : Full s) : pfa_alloc s = (0#32,s) := by
  rcases pfa_alloc_cases s with ⟨failed,_⟩ | ⟨f,inside,free,_⟩
  · exact failed
  · rw [full f inside] at free
    cases free

/-- What an edit has asked for: a table that it did not get, or nothing that it did
    not get. -/
theorem edited_requests {q : Phys} {s' : Frames} {tables' : Nat → Option Word} {map' : PageMap} {virt a : Word}
    (rep : Represents q.mem dir tables map) (zero : is_used q.frames 0 = true)
    (edited : Edited q.frames s' tables tables' map map' virt a) :
    (map_requests physical q dir virt = [0#32] ∧ Full q.frames ∧ tables (virt >>> 22).toNat = none ∧ s' = q.frames ∧
        map' = map) ∨
      (0#32 ∉ map_requests physical q dir virt ∧
        map' = Function.update map (pageOf virt) (some (a,PTE_PRESENT ||| PTE_RW ||| PTE_USER)) ∧
        (∀ i, tables' i ≠ none ↔ tables i ≠ none ∨ i = (virt >>> 22).toNat) ∧
        usedCount s' = usedCount q.frames+(if tables (virt >>> 22).toNat = none then 1 else 0)) := by
  rw [map_requests_eq rep]
  rcases edited with ⟨full,none,rfl,_,rfl⟩ | ⟨rfl,⟨present,rfl,rfl⟩ | ⟨none,f,inside,free,least,rfl,rfl⟩⟩
  · rw [if_pos none,alloc_full full]
    exact .inl ⟨rfl,full,none,rfl,rfl⟩
  · rw [if_neg present]
    refine .inr ⟨List.not_mem_nil,rfl,?_,by rw [if_neg present,Nat.add_zero]⟩
    intro i
    constructor
    · exact .inl
    · rintro (here | rfl)
      · exact here
      · exact present
  · rw [if_pos none,pfa_alloc_eq inside free least]
    refine .inr ⟨?_,rfl,?_,?_⟩
    · simpa using (pfa_alloc_nonzero zero inside free).symm
    · intro i
      by_cases same : i = (virt >>> 22).toNat
      · subst same
        simp only [Function.update_self,ne_eq,reduceCtorEq,not_false_eq_true,or_true]
      · simp only [Function.update_of_ne same,same,or_false]
    · rw [if_pos none,usedCount_mark_used inside free]

theorem pageOf_offset {a : Word} (aligned : PageAligned a) {o : Nat} (inPage : o < 4096) :
    pageOf (a+BitVec.ofNat 32 o) = pageOf a := by
  simp only [PageAligned] at aligned
  exact pageOf_add (show a.toNat % 4096+4096 ≤ 4096 by omega) inPage

/-- The pages so far and the one that is being copied hold the file. -/
theorem copied_filled (progress : Progress prog_data prog_size base kstack dir pages got tables map p)
    (begins : 4096*got.length < prog_size.toNat) {f : Nat} (inside : f < MAX_FRAMES) (free : is_used p.frames f = false)
    (unread : ∀ n < prog_size.toNat, ¬ Took base.frames p.frames (pageOf (prog_data+BitVec.ofNat 32 n)))
    (outside : ∀ n < prog_size.toNat, pageOf (prog_data+BitVec.ofNat 32 n) ≠ f) {v : Nat} {a : Word}
    (found : (got ++ [pageAddr f])[v]? = some a) {o : Nat} (inPage : o < 4096) :
    copy_page physical prog_data prog_size got.length (pageAddr f) p.mem (a+BitVec.ofNat 32 o) =
      file_byte base.mem prog_data prog_size (v*4096+o) := by
  by_cases old : v < got.length
  · rw [List.getElem?_append_left old] at found
    have member : a ∈ got := List.mem_of_getElem? found
    have other : pageOf (a+BitVec.ofNat 32 o) ≠ f := by
      rw [pageOf_offset (progress.aligned a member) inPage]
      exact took_ne (progress.userTaken a member) free
    rw [copy_page_off (physical_sees base.mem (Free base.frames)) prog_data prog_size got.length inside
      (building_free progress.toBuilding free) (building_off progress.toBuilding) _ other]
    exact progress.filled unread v a found o inPage
  · obtain ⟨inList,value⟩ := List.getElem?_eq_some_iff.mp found
    obtain rfl : v = got.length := by
      simp only [List.length_append,List.length_singleton] at inList
      omega
    rw [List.getElem_concat_length rfl] at value
    rw [← value,copy_page_contents inside begins outside inPage,file_byte,file_byte]
    split
    · rename_i below
      exact progress.off _ (unread _ below)
    · rfl

/-- One more page, with a frame for it: there was no table for it, or all is well. -/
theorem progress_round (zero : is_used base.frames 0 = true)
    (progress : Progress prog_data prog_size base kstack dir pages got tables map p) (next : got.length < pages)
    (bound : pages ≤ 1048576) (begins : 4096*got.length < prog_size.toNat) {f : Nat} (inside : f < MAX_FRAMES)
    (free : is_used p.frames f = false) :
    let copied : Phys := ⟨mark_used p.frames f,copy_page physical prog_data prog_size got.length (pageAddr f) p.mem⟩
    let virt := USER_CODE_VIRT+BitVec.ofNat 32 (got.length*PAGE_SIZE)
    let q := load_page physical dir prog_data prog_size got.length (pageAddr f) ⟨mark_used p.frames f,p.mem⟩
    (map_requests physical copied dir virt = [0#32] ∧ Full q.frames ∧ got.length % 1024 = 0 ∧
        usedCount q.frames = usedCount p.frames+1) ∨
      (0#32 ∉ map_requests physical copied dir virt ∧ ∃ tables' map',
        Progress prog_data prog_size base kstack dir pages (got ++ [pageAddr f]) tables' map' q) := by
  intro copied virt q
  have sees := physical_sees base.mem (Free base.frames)
  have isFree : Free base.frames f := building_free progress.toBuilding free
  have page : pageOf (pageAddr f) = f := pageOf_pageAddr inside
  have taken := building_take progress.toBuilding inside free isFree
  have member : pageAddr f ∈ got ++ [pageAddr f] := by simp
  have took : Took base.frames (mark_used p.frames f) f := ⟨isFree,by simp⟩
  have apart : ¬ Owns dir tables f := by simpa only [page] using (taken.userApart _ member).1
  have copiedOff := copy_page_off sees prog_data prog_size got.length inside isFree (building_off taken)
  have here : pageOf virt = got.length := code_page (by omega)
  have table : (virt >>> 22).toNat = got.length/1024 := code_table (by omega)
  have written := building_write taken took apart copiedOff
  obtain ⟨tables',map',built,_,grows,edited,mappedOff⟩ := building_map (n := 0) sees zero written
    (handed_free taken.grows 1) member (building_unmapped progress.toBuilding inside free) (.inl (by rw [here]; exact next))
  have zero' : is_used (mark_used p.frames f) 0 = true := taken.grows 0 zero
  rcases edited_requests written.rep zero' edited with ⟨asked,full,none,same,_⟩ | ⟨granted,update,tabled,count⟩
  · have same' : q.frames = mark_used p.frames f := same
    refine .inl ⟨asked,by rw [same']; exact full,?_,by rw [same']; exact usedCount_mark_used inside free⟩
    · have unset := (progress.tabled (got.length/1024) (by omega)).not
      rw [← table] at unset
      simp only [none,ne_eq,not_true_eq_false,not_false_eq_true,true_iff] at unset
      omega
  · refine .inr ⟨granted,tables',map',?_⟩
    have growsP : Grows p.frames q.frames := grows_trans (grows_mark_used p.frames f) grows
    constructor
    case toBuilding => exact built
    case tabled =>
      intro i insideI
      rw [tabled i,progress.tabled i insideI,table]
      simp only [List.length_append,List.length_singleton]
      omega
    case paged =>
      intro v
      rw [update,here]
      by_cases new : v = got.length
      · simp [new]
      · rw [Function.update_of_ne new,progress.paged v]
        by_cases old : v < got.length
        · rw [List.getElem?_append_left old]
        · rw [List.getElem?_eq_none (by omega),List.getElem?_eq_none (by simp; omega)]
    case count =>
      have needed : tables (got.length/1024) = none ↔ got.length % 1024 = 0 := by
        have set := progress.tabled (got.length/1024) (by omega)
        rw [← not_iff_not,← ne_eq,set]
        omega
      have counted : usedCount q.frames =
          usedCount (mark_used p.frames f)+(if tables (virt >>> 22).toNat = none then 1 else 0) := count
      rw [counted,usedCount_mark_used inside free,progress.count,table]
      simp only [needed,List.length_append,List.length_singleton]
      split <;> omega
    case filled =>
      intro unread v a found o inPage
      have inGot : a ∈ got ++ [pageAddr f] := List.mem_of_getElem? found
      have mapped : q.mem (a+BitVec.ofNat 32 o) = copied.mem (a+BitVec.ofNat 32 o) :=
        mappedOff _ (by rw [pageOf_offset (built.aligned a inGot) inPage]; exact (built.userApart a inGot).1)
      rw [mapped]
      exact copied_filled progress begins inside free (fun n below took => unread n below (took_grows growsP took))
        (fun n below same => unread n below (same ▸ took_grows grows took)) found inPage

/-- Once no frame is left, the loop takes none and ends. -/
theorem load_pages_full (full : Full p.frames) (left i : Nat) :
    Full (load_pages physical dir prog_data prog_size left i got p).phys.frames := by
  cases left with
  | zero => exact full
  | succ left =>
    rw [load_pages,alloc_full full]
    exact full

/-- How the loop ends: with a request that was not granted, because there were not
    enough frames, or with all pages loaded. -/
theorem load_pages_progress (zero : is_used base.frames 0 = true) (bound : pages ≤ 1048576)
    (begins : ∀ i < pages, 4096*i < prog_size.toNat) (left : Nat)
    (progress : Progress prog_data prog_size base kstack dir pages got tables map p) (total : got.length+left = pages) :
    let loaded := load_pages physical dir prog_data prog_size left got.length got p
    let requests := load_requests physical dir prog_data prog_size left got.length p
    (0#32 ∈ requests ∧ Full loaded.phys.frames ∧
        MAX_FRAMES < usedCount base.frames+2+pages+(pages+1023)/1024) ∨
      (0#32 ∉ requests ∧ loaded.complete = true ∧ loaded.code_frames.length = pages ∧ ∃ tables' map',
        Progress prog_data prog_size base kstack dir pages loaded.code_frames tables' map' loaded.phys) := by
  induction left generalizing got tables map p with
  | zero => exact .inr ⟨List.not_mem_nil,rfl,total,tables,map,progress⟩
  | succ left ih =>
    have zeroP : is_used p.frames 0 = true := progress.grows 0 zero
    have used := progress.count
    simp only [load_pages,load_requests]
    rcases pfa_alloc_cases p.frames with ⟨failed,full⟩ | ⟨f,inside,free,least,found⟩
    · rw [failed]
      simp only [if_true]
      refine .inl ⟨List.mem_singleton_self _,full,?_⟩
      rw [(full_iff p.frames).mp full] at used
      omega
    · rw [found]
      simp only [if_neg (pfa_alloc_nonzero zeroP inside free)]
      rcases progress_round zero progress (by omega) bound (begins _ (by omega)) inside free with
        ⟨asked,full,boundary,more⟩ | ⟨granted,tables',map',further⟩
      · refine .inl ⟨?_,load_pages_full full _ _,?_⟩
        · rw [asked]
          simp
        · rw [(full_iff _).mp full,used] at more
          omega
      · rcases ih further (by simp; omega) with ⟨failed,rest⟩ | ⟨rest,done⟩
        · rw [List.length_append,List.length_singleton] at failed rest
          exact .inl ⟨by simp [failed],rest⟩
        · rw [List.length_append,List.length_singleton] at rest done
          refine .inr ⟨?_,done⟩
          simp only [List.mem_cons,List.mem_append,not_or]
          exact ⟨(pfa_alloc_nonzero zeroP inside free).symm,granted,rest⟩

end

/-! ### The whole call -/

/-- The frames that a call needs, the table for the user stack not counted. -/
def loading_frames (pages : Nat) : Nat := 3+pages+(pages+1023)/1024

/-- Each page that is counted begins inside the file. -/
theorem code_pages_begins (prog_size : Word) : ∀ i < code_pages prog_size, 4096*i < prog_size.toNat := by
  intro i below
  simp only [code_pages,PAGE_SIZE,BitVec.toNat_udiv,BitVec.toNat_sub,BitVec.toNat_add,BitVec.toNat_ofNat,Nat.reducePow,
    Nat.reduceMod] at below
  omega

/-- What a call has left when all its requests were granted. -/
structure Created (prog_data prog_size : Word) (c : Creation) (k : Kernel) (tables : Nat → Option Word) (map : PageMap) :
    Prop where
  rep : Represents c.kernel.phys.mem c.user_dir tables map
  length : c.code_frames.length = code_pages prog_size
  codeAligned : ∀ a ∈ c.code_frames, PageAligned a
  stackAligned : PageAligned c.stack_frame
  code : ∀ v, v ≠ 0xBFFFF → map v = (c.code_frames[v]?).map (fun a => (a,PTE_PRESENT ||| PTE_RW ||| PTE_USER))
  stack : map 0xBFFFF = some (c.stack_frame,PTE_PRESENT ||| PTE_RW ||| PTE_USER)
  filled : (∀ n < prog_size.toNat,
      ¬ Took k.phys.frames c.kernel.phys.frames (pageOf (prog_data+BitVec.ofNat 32 n))) →
    ∀ v a, c.code_frames[v]? = some a → ∀ o < 4096,
      c.kernel.phys.mem (a+BitVec.ofNat 32 o) = file_byte k.phys.mem prog_data prog_size (v*4096+o)
  zeros : ∀ o < 4096, c.kernel.phys.mem (c.stack_frame+BitVec.ofNat 32 o) = 0#8

/-- The kernel stack and the directory, before any page. -/
theorem progress_start {base : Phys} (zero : is_used base.frames 0 = true) (prog_data prog_size : Word) (pages : Nat)
    {f : Nat} (inside : f < MAX_FRAMES) (free : is_used base.frames f = false)
    (least : ∀ g < f, is_used base.frames g = true) :
    let dir := paging_create_kernel_dir physical
      ⟨mark_used base.frames f,memset physical base.mem (pageAddr f) 0#8 PAGE_SIZE⟩
    (dir.1 = 0#32 ∧ usedCount base.frames+1 = MAX_FRAMES) ∨
      (dir.1 ≠ 0#32 ∧ Progress prog_data prog_size base (pageAddr f) dir.1 pages [] (fun _ => none) (fun _ => none) dir.2) := by
  intro dir
  have one := usedCount_mark_used inside free
  obtain ⟨_,⟨failed,full⟩ | ⟨gotDir,build,_⟩⟩ := building_start (n := 0) (physical_sees base.mem (Free base.frames)) zero
    pages (handed_free (grows_refl _) 2) inside free least
  · rw [(full_iff _).mp full] at one
    exact .inl ⟨by rw [show dir = _ from failed],one.symm⟩
  · refine .inr ⟨gotDir,build,by simp,by simp,?_,by simp⟩
    have got : (pfa_alloc (mark_used base.frames f)).1 ≠ 0#32 := by
      rwa [← create_dir physical ⟨mark_used base.frames f,memset physical base.mem (pageAddr f) 0#8 PAGE_SIZE⟩]
    have two := usedCount_alloc got
    rw [one] at two
    rw [show dir.2.frames = (pfa_alloc (mark_used base.frames f)).2 from create_frames ..,two]
    simp only [List.length_nil]

/-- The end of the call: the user stack is a page of zeros, which is mapped unless
    there is no frame for its table, and the code pages keep their contents. -/
theorem progress_finish {prog_data prog_size : Word} {base p : Phys} {kstack dir : Word} {pages : Nat} {got : List Word}
    {tables : Nat → Option Word} {map : PageMap} (zero : is_used base.frames 0 = true) (trampoline : Word)
    (progress : Progress prog_data prog_size base kstack dir pages got tables map p) {f : Nat} (inside : f < MAX_FRAMES)
    (free : is_used p.frames f = false) (least : ∀ g < f, is_used p.frames g = true) :
    let cleared : Phys := ⟨mark_used p.frames f,memset physical p.mem (pageAddr f) 0#8 PAGE_SIZE⟩
    let mapped := paging_map_4k physical cleared dir USER_STACK_VIRT (pageAddr f) (PTE_PRESENT ||| PTE_RW ||| PTE_USER)
    let pushed := push_words physical mapped.mem (kstack+BitVec.ofNat 32 PAGE_SIZE) (initial_stack trampoline)
    ∃ tables' map', Space pushed.1 (Took base.frames mapped.frames) kstack dir pages (got ++ [pageAddr f]) tables' map' ∧
      ((map_requests physical cleared dir USER_STACK_VIRT = [0#32] ∧ Full cleared.frames ∧ tables 767 = none ∧
          map' = map) ∨
        (0#32 ∉ map_requests physical cleared dir USER_STACK_VIRT ∧ (tables 767 ≠ none ∨ ¬ Full cleared.frames) ∧
          map' = Function.update map 0xBFFFF (some (pageAddr f,PTE_PRESENT ||| PTE_RW ||| PTE_USER)))) ∧
      ((∀ n < prog_size.toNat, ¬ Took base.frames mapped.frames (pageOf (prog_data+BitVec.ofNat 32 n))) →
        ∀ v a, got[v]? = some a → ∀ o < 4096,
          pushed.1 (a+BitVec.ofNat 32 o) = file_byte base.mem prog_data prog_size (v*4096+o)) ∧
      ∀ o < 4096, pushed.1 (pageAddr f+BitVec.ofNat 32 o) = 0#8 := by
  intro cleared mapped pushed
  have sees := physical_sees base.mem (Free base.frames)
  have page : pageOf (pageAddr f) = f := pageOf_pageAddr inside
  have start : (pageAddr f).toNat % 4096 = 0 := pageAddr_aligned f
  have isFree : Free base.frames f := building_free progress.toBuilding free
  have taken := building_take progress.toBuilding inside free isFree
  have member : pageAddr f ∈ got ++ [pageAddr f] := by simp
  obtain ⟨_,clearedOff⟩ := memset_off sees (building_off progress.toBuilding) 0#8
    (show (pageAddr f).toNat % 4096+PAGE_SIZE ≤ 4096 by simp only [PAGE_SIZE]; omega) (by rwa [page])
  rw [page] at clearedOff
  have written := building_write taken (f := f) (by simpa only [page] using taken.userTaken _ member)
    (by simpa only [page] using (taken.userApart _ member).1) clearedOff
  obtain ⟨tables',map',built,grows,edited,off,_⟩ := building_finish sees zero trampoline progress.toBuilding
    (handed_free progress.grows 2) inside free least
  have table : (USER_STACK_VIRT >>> 22).toNat = 767 := by decide
  have here : pageOf USER_STACK_VIRT = 0xBFFFF := by decide
  have kept : ∀ a ∈ got ++ [pageAddr f], ∀ o < 4096, pageOf (a+BitVec.ofNat 32 o) = pageOf a ∧
      pushed.1 (a+BitVec.ofNat 32 o) = cleared.mem (a+BitVec.ofNat 32 o) := by
    intro a inGot o inPage
    have pageA := pageOf_offset (built.aligned a inGot) inPage
    obtain ⟨noTable,notStack⟩ := built.userApart a inGot
    exact ⟨pageA,off _ (by rwa [pageA]) (by rwa [pageA])⟩
  refine ⟨tables',map',built.toSpace,?_,?_,?_⟩
  · rcases edited_requests written.rep (taken.grows 0 zero) edited with ⟨asked,full,none,_,same⟩ | ⟨granted,update,_⟩
    · rw [table] at none
      exact .inl ⟨asked,full,none,same⟩
    · rw [here] at update
      refine .inr ⟨granted,?_,update⟩
      rw [map_requests_eq written.rep,table] at granted
      by_cases none : tables 767 = none
      · rw [if_pos none] at granted
        refine .inr (fun full => granted ?_)
        rw [alloc_full full]
        exact List.mem_singleton_self _
      · exact .inl none
  · intro unread v a found o inPage
    have inGot : a ∈ got := List.mem_of_getElem? found
    obtain ⟨pageA,same⟩ := kept a (List.mem_append_left _ inGot) o inPage
    have other : pageOf a ≠ f := took_ne (progress.userTaken a inGot) free
    have before : cleared.mem (a+BitVec.ofNat 32 o) = p.mem (a+BitVec.ofNat 32 o) := clearedOff _ (by rwa [pageA])
    rw [same,before]
    exact progress.filled (fun n below took => unread n below (took_grows grows took)) v a found o inPage
  · intro o inPage
    rw [(kept _ member o inPage).2]
    exact (memset_contents p.mem (pageAddr f) 0#8 (by decide)).1 o inPage

/-- How a call ends that has found its program. A request for a frame that was not
    granted makes it fail, except the very last one, for the table of the user stack. -/
theorem create_image_outcome (trampoline : Word) (slot : Slot) (prog_data prog_size : Word) (name : List Byte) {k : Kernel}
    (zero : is_used k.phys.frames 0 = true) :
    let c := create_image physical trampoline slot prog_data prog_size name k
    let requests := create_requests physical prog_data prog_size k
    (0#32 ∈ requests ∧ c.slot = none ∧ freeCount k.phys.frames < loading_frames (code_pages prog_size)) ∨
      (0#32 ∈ requests ∧ c.slot = some slot ∧ freeCount k.phys.frames = loading_frames (code_pages prog_size) ∧
        code_pages prog_size ≤ 0xBFC00 ∧ ∃ tables map, Represents c.kernel.phys.mem c.user_dir tables map ∧
          map 0xBFFFF = none) ∨
      (0#32 ∉ requests ∧ c.slot = some slot ∧
        loading_frames (code_pages prog_size) ≤ freeCount k.phys.frames ∧
        (freeCount k.phys.frames = loading_frames (code_pages prog_size) → 0xBFC00 < code_pages prog_size) ∧
        ∃ tables map, Created prog_data prog_size c k tables map) := by
  simp only [create_image,create_requests]
  rcases pfa_alloc_cases k.phys.frames with ⟨failed,full⟩ | ⟨f,inside,free,least,found⟩
  · rw [failed]
    simp only [if_true]
    refine .inl ⟨List.mem_singleton_self _,rfl,?_⟩
    rw [freeCount,(full_iff _).mp full]
    simp only [loading_frames]
    omega
  have nonzero := pfa_alloc_nonzero zero inside free
  rw [found]
  simp only [if_neg nonzero]
  rcases progress_start zero prog_data prog_size (code_pages prog_size) inside free least with
    ⟨failed,used⟩ | ⟨gotDir,progress⟩
  · simp only [if_pos failed]
    refine .inl ⟨by rw [failed]; simp,rfl,?_⟩
    simp only [loading_frames,freeCount]
    omega
  simp only [if_neg gotDir]
  have loads := load_pages_progress zero (code_pages_le prog_size) (code_pages_begins prog_size) (code_pages prog_size)
    progress (by simp)
  simp only [List.length_nil] at loads
  generalize load_pages physical _ prog_data prog_size _ 0 [] _ = loaded at loads ⊢
  generalize load_requests physical _ prog_data prog_size _ 0 _ = asked at loads ⊢
  have most := usedCount_le k.phys.frames
  rcases loads with ⟨refused,full,lack⟩ | ⟨granted,complete,length,tables,map,done⟩
  · have few : freeCount k.phys.frames < loading_frames (code_pages prog_size) := by
      simp only [loading_frames,freeCount]
      omega
    by_cases complete : loaded.complete = true
    · simp only [complete,Bool.not_true,Bool.false_eq_true,if_false,alloc_full full,if_true]
      exact .inl ⟨by simp [refused],rfl,few⟩
    · simp only [complete,Bool.not_false,if_true]
      exact .inl ⟨by simp [refused],rfl,few⟩
  simp only [complete,Bool.not_true,Bool.false_eq_true,if_false]
  have zeroL : is_used loaded.phys.frames 0 = true := done.grows 0 zero
  have used := done.count
  rw [length] at used
  rcases pfa_alloc_cases loaded.phys.frames with ⟨failed,full⟩ | ⟨g,insideG,freeG,leastG,foundG⟩
  · rw [failed]
    simp only [if_true]
    refine .inl ⟨by simp,rfl,?_⟩
    rw [(full_iff _).mp full] at used
    simp only [loading_frames,freeCount]
    omega
  have nonzeroG := pfa_alloc_nonzero zeroL insideG freeG
  have usedG := usedCount_mark_used insideG freeG
  rw [foundG]
  simp only [if_neg nonzeroG]
  obtain ⟨tables',map',space,asks,filled,zeros⟩ := progress_finish zero trampoline done insideG freeG leastG
  have tabled := done.tabled 767 (by decide)
  rw [length] at tabled
  rcases asks with ⟨refused,full,noTable,same⟩ | ⟨stackGranted,there,update⟩
  · have below : code_pages prog_size ≤ 0xBFC00 := by
      have unset := tabled.not
      rw [noTable] at unset
      simp only [ne_eq,not_true_eq_false,not_false_eq_true,true_iff] at unset
      omega
    refine .inr (.inl ⟨by rw [refused]; simp,trivial,?_,below,tables',map',space.rep,?_⟩)
    · rw [(full_iff _).mp full,used] at usedG
      simp only [loading_frames,freeCount]
      omega
    · rw [same,done.paged,List.getElem?_eq_none (by omega)]
      rfl
  · have mostG := usedCount_le (mark_used loaded.phys.frames g)
    rw [usedG,used] at mostG
    refine .inr (.inr ⟨?_,trivial,?_,?_,tables',map',?_⟩)
    · simp only [List.mem_append,List.mem_cons,not_or]
      exact ⟨⟨nonzero.symm,gotDir.symm,granted⟩,nonzeroG.symm,stackGranted⟩
    · simp only [loading_frames,freeCount]
      omega
    · intro last
      rcases there with isTable | room
      · have long := tabled.mp isTable
        omega
      · have notAll := mt (full_iff _).mpr room
        rw [usedG,used] at notAll
        simp only [loading_frames,freeCount] at last
        omega
    · constructor
      case rep => exact space.rep
      case length => exact length
      case codeAligned => exact done.aligned
      case stackAligned => exact pageAddr_aligned g
      case code =>
        intro v notStack
        rw [update,Function.update_of_ne notStack,done.paged v]
      case stack => rw [update,Function.update_self]
      case filled => exact filled
      case zeros => exact zeros

end SoKernel.Loading
