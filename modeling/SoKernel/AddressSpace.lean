import SoKernel.KernelAccess

/-!
What `process_create` does to memory and frames. Every frame it uses was free
before the call, it writes nowhere else, and the directory it builds maps user
pages to frames of the call alone. All of this holds as long as the kernel
reaches the free frames through its pointers.
-/
namespace SoKernel.AddressSpace
open SoKernel.Words SoKernel.Pages SoKernel.Pfa SoKernel.Paging SoKernel.PageTables SoKernel.Fs SoKernel.Process
open SoKernel.KernelAccess SoKernel.Stack
set_option linter.unusedSimpArgs false

/-- No frame has been given back. -/
def Grows (before after : Frames) : Prop := ∀ f, is_used before f = true → is_used after f = true
/-- The frames that were taken between two states of the allocator. -/
def Took (before after : Frames) (f : Nat) : Prop := is_used before f = false ∧ is_used after f = true
def Free (s : Frames) (f : Nat) : Prop := is_used s f = false
def Full (s : Frames) : Prop := ∀ f < MAX_FRAMES, is_used s f = true

theorem grows_refl (s : Frames) : Grows s s := fun _ used => used
theorem grows_trans {s t u : Frames} (first : Grows s t) (second : Grows t u) : Grows s u :=
  fun f used => second f (first f used)
theorem grows_mark_used (s : Frames) (f : Nat) : Grows s (mark_used s f) := by
  intro g used
  simp [used]
theorem grows_pfa_alloc (s : Frames) : Grows s (pfa_alloc s).2 := by
  rcases pfa_alloc_cases s with ⟨failed,_⟩ | ⟨f,_,_,_,found⟩
  · rw [failed]
    exact grows_refl s
  · rw [found]
    exact grows_mark_used s f
theorem took_grows {s t u : Frames} (grows : Grows t u) {f : Nat} (took : Took s t f) : Took s u f :=
  ⟨took.1,grows f took.2⟩
theorem full_grows {s t : Frames} (grows : Grows s t) (full : Full s) : Full t := fun f inside => grows f (full f inside)

/-- A frame that is used now was not free before it was taken, so a free frame is none of those. -/
theorem took_ne {s t : Frames} {f g : Nat} (took : Took s t f) (free : is_used t g = false) : f ≠ g := by
  rintro rfl
  rw [took.2] at free
  cases free

theorem off_subset {F G : Nat → Prop} {base m : Memory} (subset : ∀ f, F f → G f) (off : Off F base m) : Off G base m :=
  fun a outside => off a (fun inside => outside (subset _ inside))

/-- The next `n` frames that the allocator hands out are frames of `F`. -/
def Handed (F : Nat → Prop) : Nat → Frames → Prop
  | 0, _ => True
  | n+1, s => ∀ f < MAX_FRAMES, is_used s f = false → (∀ g < f, is_used s g = true) → F f ∧ Handed F n (mark_used s f)

theorem handed_next {F : Nat → Prop} {n : Nat} {s : Frames} (handed : Handed F (n+1) s) : Next F s :=
  fun f inside free least => (handed f inside free least).1

theorem handed_pred {F : Nat → Prop} {n : Nat} {s : Frames} (handed : Handed F (n+1) s) : Handed F n s := by
  induction n generalizing s with
  | zero => trivial
  | succ n ih => exact fun f inside free least => ⟨(handed f inside free least).1,ih (handed f inside free least).2⟩

theorem handed_le {F : Nat → Prop} {m n : Nat} {s : Frames} (le : m ≤ n) (handed : Handed F n s) : Handed F m s := by
  induction n with
  | zero => rwa [Nat.le_zero.mp le]
  | succ n ih =>
    rcases Nat.le_succ_iff.mp le with lower | rfl
    · exact ih lower (handed_pred handed)
    · exact handed

/-- What is handed out later was free before. -/
theorem handed_free {base s : Frames} (grows : Grows base s) (n : Nat) : Handed (Free base) n s := by
  induction n generalizing s with
  | zero => trivial
  | succ n ih =>
    intro f _ free _
    refine ⟨?_,ih (grows_trans grows (grows_mark_used s f))⟩
    by_contra used
    rw [grows f (by simpa [Free] using used)] at free
    cases free

/-! ### A directory under construction -/

/-- The directory of a process with its kernel stack and its user frames `got`,
    all in frames of `taken`. User frames are mapped below `pages` or at the page
    of the user stack, each at one page at most; nothing else is. -/
structure Space (m : Memory) (taken : Nat → Prop) (kstack dir : Word) (pages : Nat) (got : List Word)
    (tables : Nat → Option Word) (map : PageMap) : Prop where
  rep : Represents m dir tables map
  owned : ∀ f, Owns dir tables f → taken f
  aligned : ∀ a ∈ got, PageAligned a
  userTaken : ∀ a ∈ got, taken (pageOf a)
  stackAligned : PageAligned kstack
  stackTaken : taken (pageOf kstack)
  stackApart : ¬ Owns dir tables (pageOf kstack)
  userApart : ∀ a ∈ got, ¬ Owns dir tables (pageOf a) ∧ pageOf a ≠ pageOf kstack
  mapped : ∀ v phys flags, map v = some (phys,flags) →
    phys ∈ got ∧ flags = PTE_PRESENT ||| PTE_RW ||| PTE_USER ∧ (v < pages ∨ v = 0xBFFFF)
  once : ∀ v w phys flags flags', map v = some (phys,flags) → map w = some (phys,flags') → v = w

/-- The call that started in `base` has come to `p`, with frames of `F`. -/
structure Building (F : Nat → Prop) (base : Phys) (kstack dir : Word) (pages : Nat) (got : List Word)
    (tables : Nat → Option Word) (map : PageMap) (p : Phys) : Prop
    extends Space p.mem (Took base.frames p.frames) kstack dir pages got tables map where
  grows : Grows base.frames p.frames
  off : Off (Took base.frames p.frames) base.mem p.mem
  within : ∀ f, Took base.frames p.frames f → F f

/-- A page that is neither a code page nor the user stack is mapped to itself. -/
theorem space_identity {m : Memory} {taken : Nat → Prop} {kstack dir : Word} {pages : Nat} {got : List Word}
    {tables : Nat → Option Word} {map : PageMap} (space : Space m taken kstack dir pages got tables map) {a : Word}
    (notCode : pages ≤ pageOf a) (notStack : pageOf a ≠ 0xBFFFF) : translate m dir a = some ⟨a,true,false⟩ := by
  have unmapped : map (pageOf a) = none := by
    cases mapped : map (pageOf a) with
    | none => rfl
    | some target =>
      obtain ⟨phys,flags⟩ := target
      rcases (space.mapped _ phys flags mapped).2.2 with isCode | isStack
      · omega
      · exact absurd isStack notStack
  rw [translate_correct space.rep,view,unmapped]

/-- A directory means the same as long as its own frames are left alone. -/
theorem space_congr {m n : Memory} {taken taken' : Nat → Prop} {kstack dir : Word} {pages : Nat} {got : List Word}
    {tables : Nat → Option Word} {map : PageMap} (space : Space m taken kstack dir pages got tables map)
    (more : ∀ f, taken f → taken' f) (same : ∀ a, Owns dir tables (pageOf a) → n a = m a) :
    Space n taken' kstack dir pages got tables map where
  rep := represents_congr space.rep same
  owned := fun f owns => more f (space.owned f owns)
  aligned := space.aligned
  userTaken := fun a member => more _ (space.userTaken a member)
  stackAligned := space.stackAligned
  stackTaken := more _ space.stackTaken
  stackApart := space.stackApart
  userApart := space.userApart
  mapped := space.mapped
  once := space.once

/-- A frame that was free before the last frame was taken. -/
theorem took_mark_used {base s : Frames} {f g : Nat} (took : Took base (mark_used s f) g) : Took base s g ∨ g = f := by
  obtain ⟨free,used⟩ := took
  by_cases same : g = f
  · exact .inr same
  · exact .inl ⟨free,by simpa [same] using used⟩

section
variable {x : Access} {F : Nat → Prop} {base p : Phys} {kstack dir : Word} {pages n : Nat} {got : List Word}
  {tables : Nat → Option Word} {map : PageMap}

theorem building_off (build : Building F base kstack dir pages got tables map p) : Off F base.mem p.mem :=
  off_subset build.within build.off

/-- Writing to a frame that belongs to no table changes no table. -/
theorem building_write (build : Building F base kstack dir pages got tables map p) {m : Memory} {f : Nat}
    (took : Took base.frames p.frames f) (apart : ¬ Owns dir tables f) (same : ∀ a, pageOf a ≠ f → m a = p.mem a) :
    Building F base kstack dir pages got tables map { p with mem := m } := by
  refine ⟨space_congr build.toSpace (fun _ taken => taken) ?_,build.grows,?_,build.within⟩
  · exact fun a owns => same a (fun here => apart (here ▸ owns))
  · intro a outside
    have other : pageOf a ≠ f := fun here => outside (here ▸ took)
    exact (same a other).trans (build.off a outside)

theorem building_free (build : Building F base kstack dir pages got tables map p) {f : Nat}
    (free : is_used p.frames f = false) : is_used base.frames f = false := by
  by_contra used
  rw [build.grows f (by simpa using used)] at free
  cases free

/-- A free frame is not mapped. -/
theorem building_unmapped (build : Building F base kstack dir pages got tables map p) {f : Nat} (inside : f < MAX_FRAMES)
    (free : is_used p.frames f = false) (v : Nat) (flags : Word) : map v ≠ some (pageAddr f,flags) := by
  intro mapped
  refine took_ne (build.userTaken _ (build.mapped v _ _ mapped).1) free ?_
  exact pageOf_pageAddr inside

/-- A new user frame. -/
theorem building_take (build : Building F base kstack dir pages got tables map p) {f : Nat} (inside : f < MAX_FRAMES)
    (free : is_used p.frames f = false) (inF : F f) :
    Building F base kstack dir pages (got ++ [pageAddr f]) tables map { p with frames := mark_used p.frames f } := by
  have grows := grows_mark_used p.frames f
  have page : pageOf (pageAddr f) = f := pageOf_pageAddr inside
  have newTook : Took base.frames (mark_used p.frames f) f := ⟨building_free build free,by simp⟩
  have cases : ∀ a ∈ got ++ [pageAddr f], a ∈ got ∨ a = pageAddr f := by
    intro a member
    simpa using member
  refine ⟨⟨build.rep,fun g owns => took_grows grows (build.owned g owns),?_,?_,build.stackAligned,
    took_grows grows build.stackTaken,build.stackApart,?_,?_,build.once⟩,grows_trans build.grows grows,
    off_subset (fun g => took_grows grows) build.off,?_⟩
  · intro a member
    rcases cases a member with old | rfl
    · exact build.aligned a old
    · exact pageAddr_aligned f
  · intro a member
    rcases cases a member with old | rfl
    · exact took_grows grows (build.userTaken a old)
    · rw [page]
      exact newTook
  · intro a member
    rcases cases a member with old | rfl
    · exact build.userApart a old
    · rw [page]
      exact ⟨fun owns => took_ne (build.owned f owns) free rfl,(took_ne build.stackTaken free).symm⟩
  · intro v phys flags found
    obtain ⟨member,rest⟩ := build.mapped v phys flags found
    exact ⟨List.mem_append_left _ member,rest⟩
  · intro g took
    rcases took_mark_used took with old | rfl
    · exact build.within g old
    · exact inF

/-- What mapping the frame `a` at an address has done to the frames, the tables and
    the page map: nothing when there was no frame for a table. -/
def Edited (s s' : Frames) (tables tables' : Nat → Option Word) (map map' : PageMap) (virt a : Word) : Prop :=
  (Full s ∧ tables (virt >>> 22).toNat = none ∧ s' = s ∧ tables' = tables ∧ map' = map) ∨
    (map' = Function.update map (pageOf virt) (some (a,PTE_PRESENT ||| PTE_RW ||| PTE_USER)) ∧
      ((tables (virt >>> 22).toNat ≠ none ∧ s' = s ∧ tables' = tables) ∨
        (tables (virt >>> 22).toNat = none ∧ ∃ f < MAX_FRAMES, is_used s f = false ∧ (∀ g < f, is_used s g = true) ∧
          s' = mark_used s f ∧ tables' = Function.update tables (virt >>> 22).toNat (some (pageAddr f)))))

/-- A table is where it is needed. -/
theorem mapped_table {m : Memory} {dir : Word} {tables : Nat → Option Word} {map : PageMap}
    (rep : Represents m dir tables map) {virt : Word} (mapped : map (pageOf virt) ≠ none) :
    tables (virt >>> 22).toNat ≠ none := by
  intro none
  have unmapped := (rep.wide _ (dirIndex_lt virt) none).2 _ (tableIndex_lt virt)
  rw [pageOf_index] at unmapped
  exact mapped unmapped

/-- Mapping a user frame keeps the directory in shape; the page is mapped unless
    there was no frame for a table. -/
theorem building_map (sees : Sees x base.mem F) (zero : is_used base.frames 0 = true)
    (build : Building F base kstack dir pages got tables map p) (handed : Handed F (n+1) p.frames) {virt a : Word}
    (member : a ∈ got) (unmapped : ∀ v flags, map v ≠ some (a,flags)) (here : pageOf virt < pages ∨ pageOf virt = 0xBFFFF) :
    ∃ tables' map', Building F base kstack dir pages got tables' map'
        (paging_map_4k x p dir virt a (PTE_PRESENT ||| PTE_RW ||| PTE_USER)) ∧
      Handed F n (paging_map_4k x p dir virt a (PTE_PRESENT ||| PTE_RW ||| PTE_USER)).frames ∧
      Grows p.frames (paging_map_4k x p dir virt a (PTE_PRESENT ||| PTE_RW ||| PTE_USER)).frames ∧
      Edited p.frames (paging_map_4k x p dir virt a (PTE_PRESENT ||| PTE_RW ||| PTE_USER)).frames tables tables' map map'
        virt a ∧
      ∀ b, ¬ Owns dir tables' (pageOf b) →
        (paging_map_4k x p dir virt a (PTE_PRESENT ||| PTE_RW ||| PTE_USER)).mem b = p.mem b := by
  have valid : ValidFlags (PTE_PRESENT ||| PTE_RW ||| PTE_USER) := .inr (.inr (.inr rfl))
  have ownedUsed : ∀ f, Owns dir tables f → is_used p.frames f = true := fun f owns => (build.owned f owns).2
  have asPhysical : paging_map_4k x p dir virt a (PTE_PRESENT ||| PTE_RW ||| PTE_USER) =
      paging_map_4k physical p dir virt a (PTE_PRESENT ||| PTE_RW ||| PTE_USER) :=
    map_sees sees virt a _ (building_off build) build.rep (fun f owns => build.within f (build.owned f owns))
      (handed_next handed)
  rw [asPhysical]
  have updated : ∀ v phys flags,
      Function.update map (pageOf virt) (some (a,PTE_PRESENT ||| PTE_RW ||| PTE_USER)) v = some (phys,flags) →
      phys ∈ got ∧ flags = PTE_PRESENT ||| PTE_RW ||| PTE_USER ∧ (v < pages ∨ v = 0xBFFFF) := by
    intro v phys flags found
    by_cases same : v = pageOf virt
    · rw [same,Function.update_self,Option.some_inj] at found
      cases found
      exact ⟨member,rfl,same ▸ here⟩
    · rw [Function.update_of_ne same] at found
      exact build.mapped v phys flags found
  have once : ∀ v w phys flags flags',
      Function.update map (pageOf virt) (some (a,PTE_PRESENT ||| PTE_RW ||| PTE_USER)) v = some (phys,flags) →
      Function.update map (pageOf virt) (some (a,PTE_PRESENT ||| PTE_RW ||| PTE_USER)) w = some (phys,flags') → v = w := by
    intro v w phys flags flags' foundV foundW
    by_cases atV : v = pageOf virt
    · by_cases atW : w = pageOf virt
      · rw [atV,atW]
      · rw [atV,Function.update_self,Option.some_inj] at foundV
        cases foundV
        rw [Function.update_of_ne atW] at foundW
        exact absurd foundW (unmapped w flags')
    · rw [Function.update_of_ne atV] at foundV
      by_cases atW : w = pageOf virt
      · rw [atW,Function.update_self,Option.some_inj] at foundW
        cases foundW
        exact absurd foundV (unmapped v flags)
      · rw [Function.update_of_ne atW] at foundW
        exact build.once v w phys flags flags' foundV foundW
  rcases map_correct virt a build.rep valid (build.grows 0 zero) ownedUsed with
    ⟨fails,same⟩ | ⟨_,tables',rep,off,⟨sameTables,frames⟩ | ⟨f,inside,free,least,noTable,newTable,frames⟩⟩
  · rw [same]
    refine ⟨tables,map,build,handed_pred handed,grows_refl _,
      .inl ⟨?_,(needs_table build.rep virt).mp fails.1,rfl,rfl,rfl⟩,fun _ _ => rfl⟩
    rcases pfa_alloc_cases p.frames with ⟨_,full⟩ | ⟨f,inside,free,_,found⟩
    · exact full
    · exact absurd (by rw [← fails.2,found]) (pfa_alloc_nonzero (build.grows 0 zero) inside free)
  · subst sameTables
    have present : tables' (virt >>> 22).toNat ≠ none := mapped_table rep (by rw [Function.update_self]; simp)
    refine ⟨tables',_,?_,by rw [frames]; exact handed_pred handed,by rw [frames]; exact grows_refl _,
      .inr ⟨rfl,.inl ⟨present,frames,rfl⟩⟩,off⟩
    refine ⟨⟨rep,?_,build.aligned,?_,build.stackAligned,?_,build.stackApart,build.userApart,updated,once⟩,?_,?_,?_⟩ <;>
      rw [frames]
    · exact build.owned
    · exact build.userTaken
    · exact build.stackTaken
    · exact build.grows
    · intro b outside
      rw [off b (fun owns => outside (build.owned _ owns))]
      exact build.off b outside
    · exact build.within
  · -- The new table is in a frame that was free.
    have grows := grows_mark_used p.frames f
    have newTook : Took base.frames (mark_used p.frames f) f := ⟨building_free build free,by simp⟩
    have owned : ∀ g, Owns dir tables' g → Took base.frames (mark_used p.frames f) g := by
      intro g owns
      rw [newTable] at owns
      rcases owns_update inside owns with old | rfl
      · exact took_grows grows (build.owned g old)
      · exact newTook
    have apart : ∀ g, Took base.frames p.frames g → ¬ Owns dir tables g → ¬ Owns dir tables' g := by
      intro g took notOwned owns
      rw [newTable] at owns
      rcases owns_update inside owns with old | same
      · exact notOwned old
      · exact took_ne took free same
    refine ⟨tables',_,?_,by rw [frames]; exact (handed f inside free least).2,by rw [frames]; exact grows,
      .inr ⟨rfl,.inr ⟨noTable,f,inside,free,least,frames,newTable⟩⟩,off⟩
    refine ⟨⟨rep,?_,build.aligned,?_,build.stackAligned,?_,apart _ build.stackTaken build.stackApart,?_,updated,once⟩,
      ?_,?_,?_⟩
    · rw [frames]
      exact owned
    · rw [frames]
      exact fun b isUser => took_grows grows (build.userTaken b isUser)
    · rw [frames]
      exact took_grows grows build.stackTaken
    · intro b isUser
      exact ⟨apart _ (build.userTaken b isUser) (build.userApart b isUser).1,(build.userApart b isUser).2⟩
    · rw [frames]
      exact grows_trans build.grows grows
    · rw [frames]
      intro b outside
      rw [off b (fun owns => outside (owned _ owns))]
      exact build.off b (fun took => outside (took_grows grows took))
    · rw [frames]
      intro g took
      rcases took_mark_used took with old | rfl
      · exact build.within g old
      · exact (handed g inside free least).1

/-! ### The code pages -/

/-- The frames of the pages so far are mapped in order, unless memory ran out.
    The page of the user stack is mapped again later. -/
def Mapped (got : List Word) (map : PageMap) (s : Frames) : Prop :=
  Full s ∨ ∀ v a, v ≠ 0xBFFFF → got[v]? = some a → map v = some (a,PTE_PRESENT ||| PTE_RW ||| PTE_USER)

theorem copy_page_off (sees : Sees x base.mem F) (prog_data prog_size : Word) (i : Nat) {f : Nat}
    (inside : f < MAX_FRAMES) (reached : F f) {m : Memory} (off : Off F base.mem m) :
    ∀ a, pageOf a ≠ f → copy_page x prog_data prog_size i (pageAddr f) m a = m a := by
  have page : pageOf (pageAddr f) = f := pageOf_pageAddr inside
  have inF : F (pageOf (pageAddr f)) := by rwa [page]
  have start : (pageAddr f).toNat % 4096 = 0 := pageAddr_aligned f
  simp only [copy_page]
  generalize lenIs : (if BitVec.ofNat 32 PAGE_SIZE < prog_size-BitVec.ofNat 32 (i*PAGE_SIZE) then BitVec.ofNat 32 PAGE_SIZE
    else prog_size-BitVec.ofNat 32 (i*PAGE_SIZE)) = len
  have bound : len.toNat ≤ 4096 := by
    rw [← lenIs]
    split
    · decide
    · rename_i small
      simpa [BitVec.lt_def,PAGE_SIZE] using small
  obtain ⟨offCopy,copied⟩ := memcpy_off sees off (prog_data+BitVec.ofNat 32 (i*PAGE_SIZE))
    (show (pageAddr f).toNat % 4096+len.toNat ≤ 4096 by omega) inF
  rw [page] at copied
  by_cases short : len < BitVec.ofNat 32 PAGE_SIZE
  · have short' : len.toNat < 4096 := by simpa [BitVec.lt_def,PAGE_SIZE] using short
    have tail : pageOf (pageAddr f+len) = f := by
      have offset := pageOf_add (s := pageAddr f) (n := 4096) (by omega) short'
      rwa [BitVec.ofNat_toNat,BitVec.setWidth_eq,page] at offset
    have fits : (pageAddr f+len).toNat % 4096+(PAGE_SIZE-len.toNat) ≤ 4096 := by
      rw [BitVec.toNat_add]
      simp only [PAGE_SIZE]
      omega
    obtain ⟨_,filled⟩ := memset_off sees offCopy 0#8 fits (by rwa [tail])
    rw [tail] at filled
    intro a other
    rw [if_pos short,filled a other,copied a other]
  · intro a other
    rw [if_neg short,copied a other]

theorem code_page {i : Nat} (inside : i < 1048576) : pageOf (USER_CODE_VIRT+BitVec.ofNat 32 (i*PAGE_SIZE)) = i := by
  have sum : USER_CODE_VIRT+BitVec.ofNat 32 (i*PAGE_SIZE) = pageAddr i := BitVec.zero_add _
  rw [sum,pageOf_pageAddr inside]

/-- One round of the loop, with a frame for the page. -/
theorem load_page_building (sees : Sees x base.mem F) (zero : is_used base.frames 0 = true) (prog_data prog_size : Word)
    (build : Building F base kstack dir pages got tables map p) (handed : Handed F (n+2) p.frames) {f : Nat}
    (inside : f < MAX_FRAMES) (free : is_used p.frames f = false) (least : ∀ g < f, is_used p.frames g = true)
    (next : got.length < pages) (bound : pages ≤ 1048576) (mapped : Mapped got map p.frames) :
    ∃ tables' map', Building F base kstack dir pages (got ++ [pageAddr f]) tables' map'
        (load_page x dir prog_data prog_size got.length (pageAddr f) ⟨mark_used p.frames f,p.mem⟩) ∧
      Handed F n (load_page x dir prog_data prog_size got.length (pageAddr f) ⟨mark_used p.frames f,p.mem⟩).frames ∧
      Mapped (got ++ [pageAddr f]) map'
        (load_page x dir prog_data prog_size got.length (pageAddr f) ⟨mark_used p.frames f,p.mem⟩).frames := by
  have page : pageOf (pageAddr f) = f := pageOf_pageAddr inside
  obtain ⟨inF,later⟩ := handed f inside free least
  have taken := building_take build inside free inF
  have member : pageAddr f ∈ got ++ [pageAddr f] := by simp
  have took : Took base.frames (mark_used p.frames f) f := by simpa only [page] using taken.userTaken _ member
  have apart : ¬ Owns dir tables f := by simpa only [page] using (taken.userApart _ member).1
  have copied := copy_page_off sees prog_data prog_size got.length inside inF (building_off taken)
  have here : pageOf (USER_CODE_VIRT+BitVec.ofNat 32 (got.length*PAGE_SIZE)) = got.length := code_page (by omega)
  obtain ⟨tables',map',built,rest,grows,edited,_⟩ :=
    building_map sees zero (building_write taken took apart copied) later member (building_unmapped build inside free)
      (.inl (here.symm ▸ next))
  refine ⟨tables',map',built,rest,?_⟩
  rcases edited with ⟨full,_⟩ | ⟨update,_⟩
  · exact .inl (full_grows grows full)
  · refine .inr ?_
    have before : ∀ v a, v ≠ 0xBFFFF → got[v]? = some a → map v = some (a,PTE_PRESENT ||| PTE_RW ||| PTE_USER) := by
      rcases mapped with full | before
      · rw [full f inside] at free
        cases free
      · exact before
    intro v a notStack found
    rw [update,here]
    rcases Nat.lt_trichotomy v got.length with lt | rfl | gt
    · rw [Function.update_of_ne (by omega)]
      rw [List.getElem?_append_left lt] at found
      exact before v a notStack found
    · rw [Function.update_self]
      have same : pageAddr f = a := by simpa using found
      rw [same]
    · have outside : (got ++ [pageAddr f])[v]? = none := by
        rw [List.getElem?_eq_none_iff]
        simpa using gt
      rw [outside] at found
      cases found

/-- How the loop over the code pages ends: with the directory in shape, and early
    only when memory has run out. -/
def Loads (F : Nat → Prop) (n : Nat) (base : Phys) (kstack dir : Word) (pages : Nat) (loaded : Loaded) : Prop :=
  ∃ tables map, Building F base kstack dir pages loaded.code_frames tables map loaded.phys ∧
    Handed F n loaded.phys.frames ∧ Mapped loaded.code_frames map loaded.phys.frames ∧
    (loaded.complete = true → loaded.code_frames.length = pages) ∧ (loaded.complete = false → Full loaded.phys.frames)

theorem load_pages_building (sees : Sees x base.mem F) (zero : is_used base.frames 0 = true)
    (prog_data prog_size : Word) (bound : pages ≤ 1048576) (left : Nat)
    (build : Building F base kstack dir pages got tables map p) (handed : Handed F (n+2*left) p.frames)
    (count : got.length+left = pages) (mapped : Mapped got map p.frames) :
    Loads F n base kstack dir pages (load_pages x dir prog_data prog_size left got.length got p) := by
  induction left generalizing got tables map p with
  | zero => exact ⟨tables,map,build,handed,mapped,fun _ => count,by intro failed; cases failed⟩
  | succ left ih =>
    rw [load_pages]
    rcases pfa_alloc_cases p.frames with ⟨failed,full⟩ | ⟨f,inside,free,least,found⟩
    · simp only [failed,if_true]
      exact ⟨tables,map,build,handed_le (by omega) handed,mapped,by simp,fun _ => full⟩
    · have nonzero := pfa_alloc_nonzero (build.grows 0 zero) inside free
      simp only [found,nonzero,if_false]
      obtain ⟨tables',map',built,rest,mappedNext⟩ :=
        load_page_building (n := n+2*left) sees zero prog_data prog_size build handed inside free least (by omega) bound
          mapped
      have lengthNext : (got ++ [pageAddr f]).length = got.length+1 := by simp
      rw [← lengthNext]
      exact ih built rest (by rw [lengthNext]; omega) mappedNext

/-! ### The whole call -/

/-- The kernel stack and an empty directory. -/
theorem building_start (sees : Sees x base.mem F) (zero : is_used base.frames 0 = true) (pages : Nat)
    (handed : Handed F (n+2) base.frames) {f : Nat} (inside : f < MAX_FRAMES) (free : is_used base.frames f = false)
    (least : ∀ g < f, is_used base.frames g = true) :
    let p : Phys := ⟨mark_used base.frames f,memset x base.mem (pageAddr f) 0#8 PAGE_SIZE⟩
    Off (Took base.frames p.frames) base.mem p.mem ∧
      ((paging_create_kernel_dir x p = (0#32,p) ∧ Full p.frames) ∨ ((paging_create_kernel_dir x p).1 ≠ 0#32 ∧
        Building F base (pageAddr f) (paging_create_kernel_dir x p).1 pages [] (fun _ => none) (fun _ => none)
          (paging_create_kernel_dir x p).2 ∧ Handed F n (paging_create_kernel_dir x p).2.frames)) := by
  intro p
  have page : pageOf (pageAddr f) = f := pageOf_pageAddr inside
  have start : (pageAddr f).toNat % 4096 = 0 := pageAddr_aligned f
  have took : Took base.frames (mark_used base.frames f) f := ⟨free,by simp⟩
  have grows := grows_mark_used base.frames f
  obtain ⟨inF,later⟩ := handed f inside free least
  obtain ⟨offF,cleared⟩ := memset_off sees (fun _ _ => rfl) 0#8
    (show (pageAddr f).toNat % 4096+PAGE_SIZE ≤ 4096 by simp only [PAGE_SIZE]; omega) (by rwa [page])
  rw [page] at cleared
  have off : Off (Took base.frames p.frames) base.mem p.mem := by
    intro a outside
    exact cleared a (fun same => outside (same ▸ took))
  refine ⟨off,?_⟩
  have asPhysical : paging_create_kernel_dir x p = paging_create_kernel_dir physical p :=
    create_sees sees offF (handed_next later)
  rw [asPhysical]
  rcases create_correct (p := p) (grows 0 zero) with ⟨failed,full⟩ | ⟨g,insideG,freeG,leastG,dir,nonzero,frames,rep,offDir⟩
  · exact .inl ⟨failed,full⟩
  · have pageG : pageOf (pageAddr g) = g := pageOf_pageAddr insideG
    have both : g ≠ f ∧ is_used base.frames g = false := by simpa [p] using freeG
    have growsG : Grows p.frames (mark_used p.frames g) := grows_mark_used p.frames g
    have tookG : Took base.frames (mark_used p.frames g) g := ⟨both.2,by simp⟩
    obtain ⟨inFG,rest⟩ := later g insideG freeG leastG
    have ownsNew : ∀ h, Owns (pageAddr g) (fun _ => none) h → h = g := by
      rintro h (same | ⟨_,_,_,found,_⟩)
      · rwa [pageG] at same
      · cases found
    rw [dir]
    refine .inr ⟨nonzero,⟨⟨rep,?_,by simp,by simp,pageAddr_aligned f,?_,?_,by simp,by simp,by simp⟩,?_,?_,?_⟩,?_⟩
    · rw [frames]
      intro h owns
      rw [ownsNew h owns]
      exact tookG
    · rw [frames,page]
      exact took_grows growsG took
    · rw [page]
      exact fun owns => both.1 (ownsNew f owns).symm
    · rw [frames]
      exact grows_trans grows growsG
    · rw [frames]
      intro a outside
      rw [offDir a (fun same => outside (same ▸ tookG))]
      exact off a (fun took => outside (took_grows growsG took))
    · rw [frames]
      intro h tookH
      rcases took_mark_used tookH with old | rfl
      · change Took base.frames (mark_used base.frames f) h at old
        rcases took_mark_used old with ⟨wasFree,used⟩ | rfl
        · rw [wasFree] at used
          cases used
        · exact inF
      · exact inFG
    · rw [frames]
      exact rest

/-- The user stack is mapped and the kernel stack is filled in. -/
theorem building_finish (sees : Sees x base.mem F) (zero : is_used base.frames 0 = true)
    (trampoline : Word) (build : Building F base kstack dir pages got tables map p) (handed : Handed F 2 p.frames)
    {f : Nat} (inside : f < MAX_FRAMES) (free : is_used p.frames f = false)
    (least : ∀ g < f, is_used p.frames g = true) :
    let mapped := paging_map_4k x ⟨mark_used p.frames f,memset x p.mem (pageAddr f) 0#8 PAGE_SIZE⟩ dir USER_STACK_VIRT
      (pageAddr f) (PTE_PRESENT ||| PTE_RW ||| PTE_USER)
    let pushed := push_words x mapped.mem (kstack+BitVec.ofNat 32 PAGE_SIZE) (initial_stack trampoline)
    ∃ tables' map', Building F base kstack dir pages (got ++ [pageAddr f]) tables' map' { mapped with mem := pushed.1 } ∧
      Grows p.frames mapped.frames ∧
      Edited (mark_used p.frames f) mapped.frames tables tables' map map' USER_STACK_VIRT (pageAddr f) ∧
      (∀ b, ¬ Owns dir tables' (pageOf b) → pageOf b ≠ pageOf kstack →
        pushed.1 b = memset x p.mem (pageAddr f) 0#8 PAGE_SIZE b) ∧
      pushed.2 = slot kstack 1013 ∧ Stacked pushed.1 kstack 1013 (initial_stack trampoline).reverse := by
  intro mapped pushed
  have page : pageOf (pageAddr f) = f := pageOf_pageAddr inside
  have start : (pageAddr f).toNat % 4096 = 0 := pageAddr_aligned f
  obtain ⟨inF,later⟩ := handed f inside free least
  have taken := building_take build inside free inF
  have member : pageAddr f ∈ got ++ [pageAddr f] := by simp
  have took : Took base.frames (mark_used p.frames f) f := by simpa only [page] using taken.userTaken _ member
  have apart : ¬ Owns dir tables f := by simpa only [page] using (taken.userApart _ member).1
  obtain ⟨_,cleared⟩ := memset_off sees (building_off build) 0#8
    (show (pageAddr f).toNat % 4096+PAGE_SIZE ≤ 4096 by simp only [PAGE_SIZE]; omega) (by rwa [page])
  rw [page] at cleared
  have here : pageOf USER_STACK_VIRT = 0xBFFFF := by decide
  obtain ⟨tables',map',built,_,grows,edited,mappedOff⟩ :=
    building_map sees zero (building_write taken took apart cleared) later member (building_unmapped build inside free)
      (.inr here)
  obtain ⟨pointer,stacked,pushedOff⟩ := push_words_stacked sees built.stackAligned (built.within _ built.stackTaken)
    (initial_stack trampoline) (j := 1013) (by simp [initial_stack]) (building_off built)
  exact ⟨tables',map',building_write built built.stackTaken built.stackApart pushedOff,
    grows_trans (grows_mark_used p.frames f) grows,edited,
    fun b noTable notStack => (pushedOff b notStack).trans (mappedOff b noTable),pointer,stacked⟩

end

/-- The frames that a call got for user pages. -/
def user_frames (c : Creation) : List Word := c.code_frames ++ if c.stack_frame = 0#32 then [] else [c.stack_frame]

/-- What a call of `process_create` has done to memory and frames. -/
structure Image (c : Creation) (k : Kernel) : Prop where
  grows : Grows k.phys.frames c.kernel.phys.frames
  off : Off (Took k.phys.frames c.kernel.phys.frames) k.phys.mem c.kernel.phys.mem
  stack : c.kernel_stack ≠ 0#32 →
    PageAligned c.kernel_stack ∧ Took k.phys.frames c.kernel.phys.frames (pageOf c.kernel_stack)
  noDir : c.user_dir = 0#32 → user_frames c = []
  complete : c.slot ≠ none → c.code_frames.length = c.code_pages
  dir : c.user_dir ≠ 0#32 → c.kernel_stack ≠ 0#32 ∧ ∃ tables map,
    Space c.kernel.phys.mem (Took k.phys.frames c.kernel.phys.frames) c.kernel_stack c.user_dir c.code_pages
        (user_frames c) tables map ∧
      Mapped c.code_frames map c.kernel.phys.frames

theorem image_failed (k : Kernel) : Image (.failed k) k where
  grows := grows_refl _
  off := fun _ _ => rfl
  stack := fun nonzero => absurd rfl nonzero
  noDir := fun _ => rfl
  complete := fun created => absurd rfl created
  dir := fun nonzero => absurd rfl nonzero

theorem code_pages_le (prog_size : Word) : code_pages prog_size ≤ 1048576 := by
  simp only [code_pages,BitVec.toNat_udiv,PAGE_SIZE]
  have bound := (prog_size+BitVec.ofNat 32 4096-1#32).isLt
  rw [show (BitVec.ofNat 32 4096 : Word).toNat = 4096 by decide]
  omega

/-- A call takes at most two frames for each code page and four more. -/
def most_frames (pages : Nat) : Nat := 2+2*pages+2

/-- A process that has been created will find the words of its first kernel stack. -/
def NewStack (trampoline : Word) (c : Creation) : Prop :=
  ∀ i, c.slot = some i → (c.kernel.procs i).esp = slot c.kernel_stack 1013 ∧
    Stacked c.kernel.phys.mem c.kernel_stack 1013 (initial_stack trampoline).reverse

theorem newStack_failed {trampoline : Word} {c : Creation} (failed : c.slot = none) : NewStack trampoline c := by
  intro i created
  rw [failed] at created
  cases created

theorem create_image_image {x : Access} {F : Nat → Prop} {k : Kernel} (sees : Sees x k.phys.mem F)
    (zero : is_used k.phys.frames 0 = true) (trampoline : Word) (slot : Slot) (prog_data prog_size : Word)
    (name : List Byte) (handed : Handed F (most_frames (code_pages prog_size)) k.phys.frames) :
    Image (create_image x trampoline slot prog_data prog_size name k) k ∧
      NewStack trampoline (create_image x trampoline slot prog_data prog_size name k) := by
  rw [create_image]
  rcases pfa_alloc_cases k.phys.frames with ⟨failed,_⟩ | ⟨f,inside,free,least,found⟩
  · simp only [failed,if_true]
    exact ⟨image_failed k,newStack_failed rfl⟩
  have nonzero := pfa_alloc_nonzero zero inside free
  have page : pageOf (pageAddr f) = f := pageOf_pageAddr inside
  obtain ⟨off,created⟩ := building_start (n := 2+2*code_pages prog_size) sees zero (code_pages prog_size)
    (handed_le (by simp only [most_frames]; omega) handed) inside free least
  simp only [found,nonzero,if_false]
  rcases created with ⟨failed,_⟩ | ⟨gotDir,build,rest⟩
  · simp only [failed,if_true]
    refine ⟨⟨grows_mark_used _ f,off,fun _ => ⟨pageAddr_aligned f,?_⟩,fun _ => rfl,fun h => absurd rfl h,
      fun h => absurd rfl h⟩,newStack_failed rfl⟩
    rw [page]
    exact ⟨free,by simp⟩
  simp only [gotDir,if_false]
  obtain ⟨tables,map,built,left,mapped,whole,_⟩ :=
    load_pages_building (n := 2) sees zero prog_data prog_size (code_pages_le prog_size) (code_pages prog_size) build
      rest (by simp) (.inr (by simp))
  simp only [List.length_nil] at built left mapped whole
  generalize load_pages x _ prog_data prog_size _ 0 [] _ = loaded at built left mapped whole
  by_cases complete : loaded.complete = true
  · simp only [complete,Bool.not_true,Bool.false_eq_true,if_false]
    rcases pfa_alloc_cases loaded.phys.frames with ⟨failed,_⟩ | ⟨g,insideG,freeG,leastG,foundG⟩
    · simp only [failed,if_true]
      exact ⟨⟨built.grows,built.off,fun _ => ⟨built.stackAligned,built.stackTaken⟩,fun h => absurd h gotDir,
        fun h => absurd rfl h,
        fun _ => ⟨nonzero,tables,map,by simpa [user_frames,Creation.failed] using built.toSpace,mapped⟩⟩,newStack_failed rfl⟩
    · have nonzeroG := pfa_alloc_nonzero (built.grows 0 zero) insideG freeG
      obtain ⟨tables',map',done,grows,edited,_,pointer,stacked⟩ :=
        building_finish sees zero trampoline built left insideG freeG leastG
      simp only [foundG,nonzeroG,if_false]
      refine ⟨⟨done.grows,done.off,fun _ => ⟨done.stackAligned,done.stackTaken⟩,fun h => absurd h gotDir,
        fun _ => whole complete,fun _ => ⟨nonzero,tables',map',?_,?_⟩⟩,?_⟩
      · simpa only [user_frames,nonzeroG,if_false] using done.toSpace
      rcases edited with ⟨full,_,same,_⟩ | ⟨update,_⟩
      · refine .inl ?_
        simp only [same]
        exact full
      · rcases mapped with full | before
        · exact .inl (full_grows grows full)
        · refine .inr (fun v a notStack here => ?_)
          rw [update,show pageOf USER_STACK_VIRT = 0xBFFFF by decide,Function.update_of_ne notStack]
          exact before v a notStack here
      · rintro i created
        cases created
        exact ⟨by simpa [Kernel.setProc] using pointer,stacked⟩
  · have early : loaded.complete = false := by simpa using complete
    simp only [early,Bool.not_false,if_true]
    exact ⟨⟨built.grows,built.off,fun _ => ⟨built.stackAligned,built.stackTaken⟩,fun h => absurd h gotDir,
      fun h => absurd rfl h,
      fun _ => ⟨nonzero,tables,map,by simpa [user_frames,Creation.failed] using built.toSpace,mapped⟩⟩,newStack_failed rfl⟩

/-- The number of code pages of a program, as the call reads its size. -/
def program_pages (x : Access) (fs : FsInstance) (name : List Byte) (k : Kernel) : Nat :=
  let m := seen x k.phys.mem
  code_pages (fs_file_size m fs (fs_find m fs name))

section
variable {x : Access} {F : Nat → Prop} {k : Kernel} (sees : Sees x k.phys.mem F) (zero : is_used k.phys.frames 0 = true)
  (trampoline : Word) (fs : FsInstance) (name : List Byte)
  (handed : Handed F (most_frames (program_pages x fs name k)) k.phys.frames)
include sees zero handed

theorem process_create_image : Image (process_create x trampoline fs name k) k := by
  rw [process_create]
  split
  · exact image_failed k
  · simp only []
    split
    · exact image_failed k
    · exact (create_image_image sees zero trampoline _ _ _ name handed).1

theorem process_create_newStack : NewStack trampoline (process_create x trampoline fs name k) := by
  rw [process_create]
  split
  · exact newStack_failed rfl
  · simp only []
    split
    · exact newStack_failed rfl
    · exact (create_image_image sees zero trampoline _ _ _ name handed).2

end

/-- With physical addresses every call is a good one. -/
theorem process_create_physical {k : Kernel} (zero : is_used k.phys.frames 0 = true) (trampoline : Word)
    (fs : FsInstance) (name : List Byte) : Image (process_create physical trampoline fs name k) k :=
  process_create_image (physical_sees _ _) zero trampoline fs name (handed_free (grows_refl _) _)

end SoKernel.AddressSpace
