import SoKernel.Kheap

/-!
`morecore` and `kmalloc` on a well-formed heap: what they return, that they keep
the heap well formed, and that they return at all.
-/
namespace SoKernel.Kmalloc
open SoKernel.Words SoKernel.Pages SoKernel.Pfa SoKernel.FrameOwnership SoKernel.Ring SoKernel.FreeList SoKernel.Kheap
set_option linter.unusedSimpArgs false

/-- A frame that `morecore` has obtained. -/
def Held (cores : List Allocation) (f : Nat) : Prop := ∃ k ∈ cores, k.Holds f
/-- The bytes of these frames. -/
def Region (cores : List Allocation) (x : Nat) : Prop := Held cores (x/4096)

/-- The frames that the heap must never get: the first one, and those of the
    sentinel and of the byte before it. -/
def Guarded (base : Word) (f : Nat) : Prop := f = 0 ∨ ∃ x, base.toNat ≤ x+1 ∧ x < base.toNat+8 ∧ x/4096 = f

/-- A heap beside frames that others use. -/
structure Sound (base : Word) (busy : Nat → Prop) (s : Heap) (F B : Finset Word) : Prop where
  shape : Heaped s.mem base F B (Region s.cores)
  head : s.freep ∈ F
  coreUsed : ∀ f, Held s.cores f → is_used s.frames f = true
  busyUsed : ∀ f, busy f → is_used s.frames f = true ∧ ¬ Held s.cores f
  guarded : ∀ f, Guarded base f → busy f

theorem shape_region {nxt size : Word → Word} {base : Word} {F B : Finset Word} {P Q : Nat → Prop}
    (shape : Shape nxt size base F B P) (same : ∀ x, P x ↔ Q x) : Shape nxt size base F B Q := by
  obtain rfl : P = Q := funext fun x => propext (same x)
  exact shape

/-! ### More frames -/

/-- The pages for some units, when their number does not wrap around. -/
theorem core_pages_enough {units : Word} (small : units.toNat ≤ 2^29) (some_page : 0 < (core_pages units).toNat) :
    units.toNat ≤ 512*(core_pages units).toNat := by
  simp only [core_pages,sizeof_Header,PAGE_SIZE,BitVec.toNat_udiv,BitVec.toNat_sub,BitVec.toNat_add,BitVec.toNat_mul,
    BitVec.toNat_ofNat,Nat.reducePow,Nat.reduceMod] at some_page ⊢
  omega

theorem core_pages_le (units : Word) : (core_pages units).toNat ≤ 0xFFFFF := by
  simp only [core_pages,BitVec.toNat_udiv]
  have bound := (units*sizeof_Header+BitVec.ofNat 32 PAGE_SIZE-1#32).isLt
  simp only [PAGE_SIZE,BitVec.toNat_ofNat,Nat.reducePow,Nat.reduceMod] at bound ⊢
  omega

/-- The units that `morecore` writes into the header of the new block. -/
theorem core_units {pages : Word} (small : pages.toNat ≤ 0xFFFFF) :
    (pages*BitVec.ofNat 32 PAGE_SIZE / sizeof_Header).toNat = 512*pages.toNat := by
  simp only [sizeof_Header,PAGE_SIZE,BitVec.toNat_udiv,BitVec.toNat_mul,BitVec.toNat_ofNat,Nat.reducePow,Nat.reduceMod]
  omega

/-- The bytes of a run of frames beside those held already. -/
theorem region_cons {r : Nat} {pages : Word} {cores : List Allocation} (inside : r < 1048576) (x : Nat) :
    Region (⟨pageAddr r,pages⟩ :: cores) x ↔
      Region cores x ∨ (r*4096 ≤ x ∧ x < r*4096+8*(512*pages.toNat)) := by
  have first : (pageAddr r).toNat/4096 = r := by
    rw [pageAddr_toNat inside]
    omega
  simp only [Region,Held,List.mem_cons,exists_eq_or_imp,Allocation.Holds,first]
  rw [or_comm]
  refine or_congr_right ?_
  omega

section Calls
variable {base : Word} {busy : Nat → Prop} {s s' : Heap} {F B : Finset Word}

/-- The run of frames that `morecore` gets is one live block of the heap. -/
theorem core_sound (sound : Sound base busy s F B) {pages : Word} {r : Nat} (positive : 0 < pages.toNat)
    (fits : r+pages.toNat ≤ MAX_FRAMES) (free : FreeRun s.frames r pages.toNat) :
    pageAddr r ≠ 0#32 ∧ (pageAddr r).toNat+8 < 2^32 ∧ pageAddr r ∉ B ∧ Sound base busy
      { s with
        frames := pages.toNat.fold (fun i _ s => mark_used s (r+i)) s.frames
        mem := set_units s.mem (pageAddr r) (pages*BitVec.ofNat 32 PAGE_SIZE / sizeof_Header)
        cores := ⟨pageAddr r,pages⟩ :: s.cores } F (insert (pageAddr r) B) ∧
      (∀ a ∈ B, s_units (set_units s.mem (pageAddr r) (pages*BitVec.ofNat 32 PAGE_SIZE / sizeof_Header)) a =
        s_units s.mem a) := by
  simp only [MAX_FRAMES] at fits
  have shape := sound.shape
  -- No frame of the run is used by anybody.
  have unused : ∀ f, r ≤ f → f < r+pages.toNat → ¬ is_used s.frames f = true := by
    intro f low high used
    rw [free f low high] at used
    cases used
  have notGuarded : ∀ f, Guarded base f → ¬ (r ≤ f ∧ f < r+pages.toNat) := by
    rintro f guard ⟨low,high⟩
    exact unused f low high (sound.busyUsed f (sound.guarded f guard)).1
  have notFirst := notGuarded 0 (.inl rfl)
  have addr : (pageAddr r).toNat = r*4096 := pageAddr_toNat (by omega)
  have units : (pages*BitVec.ofNat 32 PAGE_SIZE / sizeof_Header).toNat = 512*pages.toNat := core_units (by omega)
  have new : ∀ y, (pageAddr r).toNat ≤ y →
      y < (pageAddr r).toNat+8*(pages*BitVec.ofNat 32 PAGE_SIZE / sizeof_Header).toNat → ¬ Region s.cores y := by
    intro y low high held
    rw [addr] at low high
    rw [units] at high
    exact unused (y/4096) (by omega) (by omega) (sound.coreUsed _ held)
  have grown := shape_grow (x := pageAddr r) (u := pages*BitVec.ofNat 32 PAGE_SIZE / sizeof_Header) shape
    (by rw [addr]; omega) (by rw [units]; omega) (by rw [addr]; omega) (by rw [addr,units]; omega) new (by
      intro y low high
      rw [addr] at low high
      rw [units] at high
      by_contra close
      exact notGuarded (y/4096) (.inr ⟨y,by omega,by omega,rfl⟩) ⟨by omega,by omega⟩)
  have inNew : pageAddr r ∈ F ∪ insert (pageAddr r) B :=
    Finset.mem_union_right F (Finset.mem_insert_self _ B)
  have fresh : pageAddr r ∉ B := by
    intro live
    have block : pageAddr r ∈ blocks base F B := mem_blocks.mpr (.inr live)
    exact new _ (le_refl _) (by rw [units]; omega) (shape.parts.inside _ block _ (covers_start shape.parts block))
  have others : ∀ {a v}, a ∈ F ∪ insert (pageAddr r) B → a ≠ pageAddr r →
      SameHeader s.mem (set_units s.mem (pageAddr r) v) a := by
    intro a v inside other
    exact sameHeader_set_units (header_fits grown inNew).2 (header_fits grown inside).2
      (headers_apart grown inNew inside other.symm)
  have notFree : ∀ {a}, a ∈ F → a ≠ pageAddr r := by
    rintro a member rfl
    exact grown.notLive _ member (Finset.mem_insert_self _ B)
  refine ⟨?_,by rw [addr]; omega,fresh,⟨?_,sound.head,?_,?_,sound.guarded⟩,?_⟩
  · intro zero
    rw [zero] at addr
    simp at addr
    omega
  · refine shape_region (shape_congr grown ?_ ?_) ?_
    · intro a inside
      exact (others (Finset.mem_union_left _ inside) (notFree inside)).1
    · intro a inside
      by_cases here : a = pageAddr r
      · subst here
        rw [Function.update_self,s_units_set_units]
      · rw [Function.update_of_ne here,(others inside here).2]
    · intro y
      rw [region_cons (by omega),addr,units]
  · rintro f ⟨k,member,holds⟩
    rw [is_used_mark_run]
    rcases List.mem_cons.mp member with rfl | old
    · have first : (pageAddr r).toNat/4096 = r := by rw [addr]; omega
      simp only [Allocation.Holds,first] at holds
      simp [holds]
    · simp [sound.coreUsed f ⟨k,old,holds⟩]
  · intro f isBusy
    obtain ⟨used,notHeld⟩ := sound.busyUsed f isBusy
    refine ⟨by simp [is_used_mark_run,used],?_⟩
    rintro ⟨k,member,holds⟩
    rcases List.mem_cons.mp member with rfl | old
    · have first : (pageAddr r).toNat/4096 = r := by rw [addr]; omega
      simp only [Allocation.Holds,first] at holds
      exact unused f holds.1 holds.2 used
    · exact notHeld ⟨k,old,holds⟩
  · intro a live
    have other : a ≠ pageAddr r := fun same => fresh (same ▸ live)
    exact (others (Finset.mem_union_right F (Finset.mem_insert_of_mem live)) other).2

/-- There are no frames for some units, or so many that their number wraps around to 0. -/
def NoCore (frames : Frames) (units : Word) : Prop :=
  core_pages units = 0#32 ∨
    ∀ t, t+(core_pages units).toNat ≤ MAX_FRAMES → ¬ FreeRun frames t (core_pages units).toNat

/-- The heap has got the lowest run of free pages, and one free block has all their units. -/
structure Grown (base : Word) (busy : Nat → Prop) (B : Finset Word) (pages : Word) (s s' : Heap) (F' : Finset Word) (r : Nat) :
    Prop where
  sound : Sound base busy s' F' B
  fits : r+pages.toNat ≤ MAX_FRAMES
  free : FreeRun s.frames r pages.toNat
  least : ∀ t < r, ¬ FreeRun s.frames t pages.toNat
  cores : s'.cores = ⟨pageAddr r,pages⟩ :: s.cores
  large : ∃ a ∈ F', 512*pages.toNat ≤ (s_units s'.mem a).toNat
  others : ∀ a ∈ B, s_units s'.mem a = s_units s.mem a

/-- `morecore` leaves everything as it was, or a free block with enough units. -/
theorem morecore_sound (sound : Sound base busy s F B) {units p : Word} (small : units.toNat ≤ 2^29) {fuel : Nat}
    (returns : morecore fuel base s units = some (p,s')) :
    (p = 0#32 ∧ s' = s ∧ NoCore s.frames units) ∨
      (p ≠ 0#32 ∧ units.toNat ≤ 512*(core_pages units).toNat ∧ ∃ F' r, Grown base busy B (core_pages units) s s' F' r) := by
  simp only [morecore] at returns
  rcases pfa_alloc_contiguous_cases s.frames (core_pages units) with ⟨failed,none⟩ | ⟨f,positive,fits,free,least,found⟩
  · rw [failed] at returns
    simp only [if_true] at returns
    cases returns
    exact .inl ⟨rfl,rfl,none⟩
  · obtain ⟨nonzero,below,fresh,sound',same⟩ := core_sound sound positive fits free
    rw [found] at returns
    simp only [if_neg nonzero] at returns
    obtain ⟨t,freed,pair⟩ := Option.map_eq_some_iff.mp returns
    cases pair
    obtain ⟨F',shape,member,kept,⟨a,inside,large⟩,others⟩ :=
      kfree_internal_shape sound'.shape sound'.head (Finset.mem_insert_self _ B) below freed
    rw [Finset.erase_insert fresh] at shape others
    simp only [s_units_set_units] at large
    rw [core_units (core_pages_le units)] at large
    have sound'' : Sound base busy s' F' B := by
      refine ⟨kept.cores ▸ shape,member,?_,?_,sound.guarded⟩
      · rw [kept.frames,kept.cores]
        exact sound'.coreUsed
      · rw [kept.frames,kept.cores]
        exact sound'.busyUsed
    refine .inr ⟨freep_nonzero sound''.shape member,core_pages_enough small positive,F',f,?_⟩
    refine ⟨sound'',fits,free,least,kept.cores,⟨a,inside,large⟩,?_⟩
    intro b live
    rw [others b live,same b live]

/-- A free block of exactly the requested size leaves the list. -/
theorem take_whole_sound (sound : Sound base busy s F B) {prev curr : Word} (place : prev ∈ F)
    (next : s_next s.mem prev = curr) (notBase : curr ≠ base) :
    curr ∉ B ∧
      Sound base busy { s with mem := set_next s.mem prev (s_next s.mem curr), freep := prev } (F.erase curr) (insert curr B) ∧
      ∀ a ∈ F ∪ B, s_units (set_next s.mem prev (s_next s.mem curr)) a = s_units s.mem a := by
  have shape := sound.shape
  have member : curr ∈ F := next ▸ (shape.ring prev place).1
  have differ : prev ≠ curr := by
    rintro rfl
    exact next_ne shape place notBase next
  have fits : ∀ {a}, a ∈ F ∪ B → a.toNat+8 ≤ 2^32 := fun inside => (header_fits shape inside).2
  have inFree := Finset.mem_union_left B place
  have others : ∀ {a v}, a ∈ F ∪ B → a ≠ prev → SameHeader s.mem (set_next s.mem prev v) a := fun inside other =>
    sameHeader_set_next (fits inFree) (fits inside) (headers_apart shape inFree inside other.symm)
  have units : ∀ a ∈ F ∪ B, s_units (set_next s.mem prev (s_next s.mem curr)) a = s_units s.mem a := by
    intro a inside
    by_cases here : a = prev
    · subst here
      exact s_units_set_next (fits inFree)
    · exact (others inside here).2
  refine ⟨shape.notLive curr member,⟨?_,Finset.mem_erase.mpr ⟨differ,place⟩,sound.coreUsed,sound.busyUsed,sound.guarded⟩,
    units⟩
  refine shape_congr (shape_take_whole shape place next notBase) ?_ ?_
  · intro a inside
    by_cases here : a = prev
    · subst here
      rw [Function.update_self,s_next_set_next]
    · rw [Function.update_of_ne here]
      exact (others (Finset.mem_union_left B (Finset.mem_of_mem_erase inside)) here).1
  · intro a inside
    refine units a ?_
    rcases Finset.mem_union.mp inside with free | live
    · exact Finset.mem_union_left B (Finset.mem_of_mem_erase free)
    · rcases Finset.mem_insert.mp live with rfl | old
      · exact Finset.mem_union_left B member
      · exact Finset.mem_union_right F old

/-- A larger free block gives its upper units away. -/
theorem take_tail_sound (sound : Sound base busy s F B) {prev curr units : Word} (place : prev ∈ F) (member : curr ∈ F)
    (positive : 0 < units.toNat) (smaller : units.toNat < (s_units s.mem curr).toNat) {m : Memory} {tail : Word}
    (tailIs : tail = header_add curr (s_units s.mem curr-units))
    (written : m = set_units (set_units s.mem curr (s_units s.mem curr-units)) tail units) :
    tail ∉ B ∧ Sound base busy { s with mem := m, freep := prev } F (insert tail B) ∧
      (∀ a ∈ B, s_units m a = s_units s.mem a) ∧ tail.toNat+8*units.toNat = curr.toNat+8*(s_units s.mem curr).toNat := by
  have shape := sound.shape
  have notBase : curr ≠ base := by
    rintro rfl
    rw [shape.empty] at smaller
    simp at smaller
  have block : curr ∈ blocks base F B := mem_blocks.mpr (.inl ⟨notBase,member⟩)
  have ends := block_end shape.parts block
  have rest : (s_units s.mem curr-units).toNat = (s_units s.mem curr).toNat-units.toNat := by
    rw [BitVec.toNat_sub_of_le (BitVec.le_def.mpr (by omega))]
  have upper : tail.toNat = curr.toNat+8*((s_units s.mem curr).toNat-units.toNat) := by
    rw [tailIs,header_add_toNat (by omega),rest]
  have taken := shape_take_tail shape member positive smaller upper
  have tailIn : tail ∈ F ∪ insert tail B := Finset.mem_union_right F (Finset.mem_insert_self _ B)
  have currIn : curr ∈ F ∪ insert tail B := Finset.mem_union_left _ member
  have differ : tail ≠ curr := by
    rintro same
    rw [same] at upper
    omega
  have fits : ∀ {a}, a ∈ F ∪ insert tail B → a.toNat+8 ≤ 2^32 := fun inside => (header_fits taken inside).2
  have fresh : tail ∉ B := by
    intro live
    have starts : Covers (s_units s.mem) curr tail.toNat := ⟨by omega,by omega⟩
    exact differ (start_inside shape.parts block (mem_blocks.mpr (.inr live)) starts)
  have others : ∀ {a}, a ∈ F ∪ insert tail B → a ≠ tail → a ≠ curr → SameHeader s.mem m a := by
    intro a inside notTail notCurr
    rw [written]
    exact sameHeader_trans (sameHeader_set_units (fits currIn) (fits inside) (headers_apart taken currIn inside notCurr.symm))
      (sameHeader_set_units (fits tailIn) (fits inside) (headers_apart taken tailIn inside notTail.symm))
  have atCurr : SameHeader (set_units s.mem curr (s_units s.mem curr-units)) m curr := by
    rw [written]
    exact sameHeader_set_units (fits tailIn) (fits currIn) (headers_apart taken tailIn currIn differ)
  have notTail : ∀ {a}, a ∈ F → a ≠ tail := by
    rintro a free rfl
    exact taken.notLive _ free (Finset.mem_insert_self _ B)
  refine ⟨fresh,⟨shape_congr taken ?_ ?_,place,sound.coreUsed,sound.busyUsed,sound.guarded⟩,?_,by omega⟩
  · intro a free
    by_cases here : a = curr
    · subst here
      exact atCurr.1.trans (s_next_set_units (fits currIn))
    · exact (others (Finset.mem_union_left _ free) (notTail free) here).1
  · intro a inside
    by_cases atTail : a = tail
    · subst atTail
      rw [Function.update_self]
      simp only [written,s_units_set_units]
    · rw [Function.update_of_ne atTail]
      by_cases here : a = curr
      · subst here
        rw [Function.update_self]
        exact atCurr.2.trans (s_units_set_units _ _ _)
      · rw [Function.update_of_ne here]
        exact (others inside atTail here).2
  · intro a live
    have notCurr : a ≠ curr := by
      rintro rfl
      exact shape.notLive a member live
    exact (others (Finset.mem_union_right F (Finset.mem_insert_of_mem live)) (fun same => fresh (same ▸ live)) notCurr).2

end Calls

/-! ### Allocating -/

/-- What a call of `kmalloc` may return: nothing, or a new live block of some units.
    The blocks that were live before keep their units. -/
structure Granted (base : Word) (busy : Nat → Prop) (B : Finset Word) (units : Word) (s : Heap) (p : Word) (s' : Heap) :
    Prop where
  result : (p = 0#32 ∧ ∃ F', Sound base busy s' F' B) ∨
    ∃ h F', p = header_add h 1#32 ∧ h ∉ B ∧ s_units s'.mem h = units ∧ Sound base busy s' F' (insert h B)
  keeps : ∀ a ∈ B, s_units s'.mem a = s_units s.mem a

/-- A block of some units has left the free list and is live. -/
structure Carved (base : Word) (busy : Nat → Prop) (B : Finset Word) (units : Word) (s : Heap) (h : Word) (s' : Heap) :
    Prop where
  fresh : h ∉ B
  size : s_units s'.mem h = units
  sound : ∃ F', Sound base busy s' F' (insert h B)
  kept : Rearranged s s'
  others : ∀ a ∈ B, s_units s'.mem a = s_units s.mem a

section Loop
variable {base units : Word} {busy : Nat → Prop} {B : Finset Word}

theorem carved_granted {s s' : Heap} {h : Word} (carved : Carved base busy B units s h s') :
    Granted base busy B units s (header_add h 1#32) s' := by
  obtain ⟨F',sound⟩ := carved.sound
  exact ⟨.inr ⟨h,F',rfl,carved.fresh,carved.size,sound⟩,carved.others⟩

/-- Only a pointer to the last unit of memory is null. -/
theorem carved_null {s s' : Heap} {h : Word} (carved : Carved base busy B units s h s') (null : header_add h 1#32 = 0#32) :
    h.toNat+8 = 2^32 ∧ units.toNat = 1 := by
  obtain ⟨F',sound⟩ := carved.sound
  have block : h ∈ blocks base F' (insert h B) := mem_blocks.mpr (.inr (Finset.mem_insert_self h B))
  have ends := block_end sound.shape.parts block
  have positive := (sound.shape.parts.unit h block).2
  rw [carved.size] at ends positive
  have top : ¬ h.toNat+8 < 2^32 := fun below => pointer_nonzero below null
  omega

/-- The upper units of a block with enough units are taken at once. -/
theorem fitting_block {s : Heap} {F : Finset Word} (sound : Sound base busy s F B) (positive : 0 < units.toNat)
    {prev curr : Word} (place : prev ∈ F) (next : s_next s.mem prev = curr) (enough : units ≤ s_units s.mem curr)
    (fuel : Nat) :
    ∃ h s', kmalloc_loop base units (fuel+1) s prev curr = some (0,header_add h 1#32,s') ∧
      Carved base busy B units s h s' ∧ h.toNat+8*units.toNat = curr.toNat+8*(s_units s.mem curr).toNat := by
  have member : curr ∈ F := next ▸ (sound.shape.ring prev place).1
  rw [kmalloc_loop,if_pos enough]
  by_cases exactly : s_units s.mem curr = units
  · rw [if_pos exactly]
    have notBase : curr ≠ base := by
      rintro rfl
      rw [sound.shape.empty] at exactly
      rw [← exactly] at positive
      simp at positive
    obtain ⟨fresh,sound',same⟩ := take_whole_sound sound place next notBase
    refine ⟨curr,_,rfl,⟨fresh,?_,⟨_,sound'⟩,⟨rfl,rfl⟩,fun a live => same a (Finset.mem_union_right F live)⟩,by rw [exactly]⟩
    exact (same curr (Finset.mem_union_left B member)).trans exactly
  · rw [if_neg exactly]
    simp only [s_units_set_units]
    have smaller : units.toNat < (s_units s.mem curr).toNat :=
      lt_of_le_of_ne (BitVec.le_def.mp enough) (fun same => exactly (BitVec.eq_of_toNat_eq same.symm))
    obtain ⟨fresh,sound',same,upper⟩ := take_tail_sound sound place member positive smaller rfl rfl
    exact ⟨_,_,rfl,⟨fresh,s_units_set_units _ _ _,⟨_,sound'⟩,⟨rfl,rfl⟩,same⟩,upper⟩

theorem kmalloc_loop_granted (positive : 0 < units.toNat) (small : units.toNat ≤ 2^29) {fuel n : Nat} {s s' : Heap}
    {F : Finset Word} (sound : Sound base busy s F B) {prev curr p : Word} (place : prev ∈ F)
    (next : s_next s.mem prev = curr) (returns : kmalloc_loop base units fuel s prev curr = some (n,p,s')) :
    Granted base busy B units s p s' := by
  induction fuel generalizing s F prev curr n with
  | zero => cases returns
  | succ fuel ih =>
    have member : curr ∈ F := next ▸ (sound.shape.ring prev place).1
    by_cases enough : units ≤ s_units s.mem curr
    · obtain ⟨h,t,found,carved,_⟩ := fitting_block sound positive place next enough fuel
      cases found.symm.trans returns
      exact carved_granted carved
    · rw [kmalloc_loop,if_neg enough] at returns
      by_cases around : curr = s.freep
      · rw [if_pos around] at returns
        obtain ⟨⟨r,t⟩,called,rest⟩ := Option.bind_eq_some_iff.mp returns
        rcases morecore_sound sound small called with ⟨rfl,rfl,_⟩ | ⟨nonzero,_,F',r,grown⟩
        · simp only [if_true] at rest
          cases rest
          exact ⟨.inl ⟨rfl,F,sound⟩,fun a _ => rfl⟩
        · simp only [if_neg nonzero] at rest
          obtain ⟨⟨k,q,u⟩,found,same⟩ := Option.map_eq_some_iff.mp rest
          cases same
          obtain ⟨result,keeps⟩ := ih grown.sound grown.sound.head rfl found
          exact ⟨result,fun a live => (keeps a live).trans (grown.others a live)⟩
      · rw [if_neg around] at returns
        exact ih sound member rfl returns

/-- While a free block with enough units lies ahead, before the loop is back at its
    start, every round comes nearer to it. -/
theorem kmalloc_loop_finds {s : Heap} {F : Finset Word} (sound : Sound base busy s F B) (positive : 0 < units.toNat)
    {fuel : Nat} {prev curr a : Word} (place : prev ∈ F) (next : s_next s.mem prev = curr) (fits : a ∈ F)
    (enough : units ≤ s_units s.mem a) (ahead : (a-curr).toNat ≤ (s.freep-curr).toNat) (rounds : (a-curr).toNat < fuel) :
    ∃ h s', kmalloc_loop base units fuel s prev curr = some (0,header_add h 1#32,s') ∧
      Carved base busy B units s h s' := by
  induction fuel generalizing prev curr with
  | zero => omega
  | succ fuel ih =>
    have member : curr ∈ F := next ▸ (sound.shape.ring prev place).1
    by_cases here : units ≤ s_units s.mem curr
    · obtain ⟨h,s',found,carved,_⟩ := fitting_block sound positive place next here fuel
      exact ⟨h,s',found,carved⟩
    · have notA : a ≠ curr := fun same => here (same ▸ enough)
      have notHead : curr ≠ s.freep := by
        intro same
        rw [← same] at ahead
        have zero : (a-curr).toNat = 0 := by simpa using ahead
        exact notA (by bv_omega)
      rw [kmalloc_loop,if_neg here,if_neg notHead]
      have step := sound.shape.ring curr member
      have restA := way_after (step.2 a fits)
      have restHead := way_after (step.2 s.freep sound.head)
      rw [way_gap notA] at ahead rounds
      rw [way_gap notHead.symm] at ahead
      exact ih member rfl (by omega) (by omega)

/-- The first round starts behind the head of the list. -/
theorem ahead_of_head {s : Heap} {F : Finset Word} (sound : Sound base busy s F B) {a : Word} (inside : a ∈ F) :
    (a-s_next s.mem s.freep).toNat ≤ (s.freep-s_next s.mem s.freep).toNat := by
  have step := sound.shape.ring s.freep sound.head
  have restA := way_after (step.2 a inside)
  have restHead := way_after (step.2 s.freep sound.head)
  have := gap_self s.freep a
  omega

theorem morecore_returns {s : Heap} {F : Finset Word} (sound : Sound base busy s F B) {fuel : Nat}
    (enough : 2^32 ≤ fuel) : ∃ r, morecore fuel base s units = some r := by
  simp only [morecore]
  rcases pfa_alloc_contiguous_cases s.frames (core_pages units) with ⟨failed,_⟩ | ⟨f,positive,fits,free,_,found⟩
  · rw [failed]
    exact ⟨_,rfl⟩
  · obtain ⟨nonzero,below,_,sound',_⟩ := core_sound sound positive fits free
    obtain ⟨t,freed⟩ := kfree_internal_returns sound'.shape sound'.head (Finset.mem_insert_self _ B) below enough
    rw [found]
    simp only [if_neg nonzero,freed]
    exact ⟨_,rfl⟩

/-- When no free block has enough units, the loop goes once around the list and asks
    for more frames; if it gets some, it finds a block on its second way around. -/
theorem kmalloc_loop_around {s : Heap} {F : Finset Word} (sound : Sound base busy s F B) (positive : 0 < units.toNat)
    (small : units.toNat ≤ 2^29) (none : ∀ a ∈ F, ¬ units ≤ s_units s.mem a) {fuel : Nat} {prev curr : Word}
    (place : prev ∈ F) (next : s_next s.mem prev = curr) (rounds : (s.freep-curr).toNat+2^32 < fuel) :
    ∃ p s', kmalloc_loop base units fuel s prev curr = some (1,p,s') ∧
      ((p = 0#32 ∧ s' = s ∧ NoCore s.frames units) ∨ ∃ t h, p = header_add h 1#32 ∧ Carved base busy B units t h s') := by
  induction fuel generalizing prev curr with
  | zero => omega
  | succ fuel ih =>
    have member : curr ∈ F := next ▸ (sound.shape.ring prev place).1
    rw [kmalloc_loop,if_neg (none curr member)]
    by_cases around : curr = s.freep
    · rw [if_pos around]
      obtain ⟨⟨r,t⟩,called⟩ : ∃ r, morecore fuel base s units = some r := morecore_returns sound (by omega)
      rw [called,Option.bind_some]
      rcases morecore_sound sound small called with ⟨rfl,rfl,noCore⟩ | ⟨nonzero,pages,F',_,grown⟩
      · exact ⟨0#32,t,rfl,.inl ⟨rfl,rfl,noCore⟩⟩
      · obtain ⟨a,inside,large⟩ := grown.large
        have sound' := grown.sound
        rw [if_neg nonzero]
        have near : (a-s_next t.mem t.freep).toNat < fuel := by
          have := (a-s_next t.mem t.freep).isLt
          omega
        obtain ⟨h,s',found,carved⟩ := kmalloc_loop_finds sound' positive sound'.head rfl inside
          (BitVec.le_def.mpr (by omega)) (ahead_of_head sound' inside) near
        refine ⟨_,s',?_,.inr ⟨t,h,rfl,carved⟩⟩
        rw [found]
        rfl
    · rw [if_neg around]
      have step := way_after ((sound.shape.ring curr member).2 s.freep sound.head)
      rw [way_gap (Ne.symm around)] at rounds
      exact ih member rfl (by omega)

/-- The loop ends after at most two ways around the list and at most one call of
    `morecore`: it has taken a block, or there is nothing to take. -/
theorem kmalloc_loop_outcome {s : Heap} {F : Finset Word} (sound : Sound base busy s F B) (positive : 0 < units.toNat)
    (small : units.toNat ≤ 2^29) {fuel : Nat} (enough : 2^33 < fuel) :
    ∃ p s' n, kmalloc_loop base units fuel s s.freep (s_next s.mem s.freep) = some (n,p,s') ∧ n ≤ 1 ∧
      ((p = 0#32 ∧ (∀ a ∈ F, ¬ units ≤ s_units s.mem a) ∧ s' = s ∧ NoCore s.frames units) ∨
        ∃ t h, p = header_add h 1#32 ∧ Carved base busy B units t h s') := by
  by_cases fit : ∃ a ∈ F, units ≤ s_units s.mem a
  · obtain ⟨a,inside,large⟩ := fit
    have near : (a-s_next s.mem s.freep).toNat < fuel := by
      have := (a-s_next s.mem s.freep).isLt
      omega
    obtain ⟨h,s',found,carved⟩ := kmalloc_loop_finds sound positive sound.head rfl inside large
      (ahead_of_head sound inside) near
    exact ⟨_,s',0,found,by omega,.inr ⟨s,h,rfl,carved⟩⟩
  · have none : ∀ a ∈ F, ¬ units ≤ s_units s.mem a := fun a inside large => fit ⟨a,inside,large⟩
    have rounds : (s.freep-s_next s.mem s.freep).toNat+2^32 < fuel := by
      have := (s.freep-s_next s.mem s.freep).isLt
      omega
    obtain ⟨p,s',found,failed⟩ := kmalloc_loop_around sound positive small none sound.head rfl rounds
    exact ⟨p,s',1,found,le_refl _,failed.imp_left (fun ⟨null,same⟩ => ⟨null,none,same⟩)⟩

/-- Without a call of `morecore` a block has been taken out of the list. -/
theorem kmalloc_loop_uncalled {s s' : Heap} {F : Finset Word} (sound : Sound base busy s F B) (positive : 0 < units.toNat)
    {fuel : Nat} {prev curr p : Word} (place : prev ∈ F) (next : s_next s.mem prev = curr)
    (returns : kmalloc_loop base units fuel s prev curr = some (0,p,s')) :
    ∃ h, p = header_add h 1#32 ∧ Carved base busy B units s h s' := by
  induction fuel generalizing prev curr with
  | zero => cases returns
  | succ fuel ih =>
    have member : curr ∈ F := next ▸ (sound.shape.ring prev place).1
    by_cases here : units ≤ s_units s.mem curr
    · obtain ⟨h,t,found,carved,_⟩ := fitting_block sound positive place next here fuel
      cases found.symm.trans returns
      exact ⟨h,rfl,carved⟩
    · rw [kmalloc_loop,if_neg here] at returns
      by_cases around : curr = s.freep
      · rw [if_pos around] at returns
        obtain ⟨more,_,rest⟩ := Option.bind_eq_some_iff.mp returns
        split at rest
        · cases rest
        · obtain ⟨r,_,impossible⟩ := Option.map_eq_some_iff.mp rest
          exact absurd (congrArg Prod.fst impossible) (Nat.succ_ne_zero r.1)
      · rw [if_neg around] at returns
        exact ih member rfl returns

end Loop

/-- A request never needs more units than fit into 4 GiB. -/
theorem request_units_bounds (bytes : Word) : 0 < (request_units bytes).toNat ∧ (request_units bytes).toNat ≤ 2^29 := by
  simp only [request_units,sizeof_Header,BitVec.toNat_add,BitVec.toNat_udiv,BitVec.toNat_sub,BitVec.toNat_ofNat,
    Nat.reducePow,Nat.reduceMod]
  omega

section Kmalloc
variable {base : Word} {busy : Nat → Prop} {s : Heap} {F B : Finset Word}

/-- A heap with blocks has been set up. -/
theorem kmalloc_counted_loop (sound : Sound base busy s F B) (fuel : Nat) {bytes : Word} (some_bytes : bytes ≠ 0#32) :
    kmalloc_counted fuel base s bytes =
      kmalloc_loop base (request_units bytes) fuel s s.freep (s_next s.mem s.freep) := by
  rw [kmalloc_counted,if_neg some_bytes]
  simp only [if_neg (freep_nonzero sound.shape sound.head)]

theorem kmalloc_granted (sound : Sound base busy s F B) {fuel : Nat} {bytes p : Word} {s' : Heap}
    (returns : kmalloc fuel base s bytes = some (p,s')) : Granted base busy B (request_units bytes) s p s' := by
  obtain ⟨positive,small⟩ := request_units_bounds bytes
  obtain ⟨⟨n,q,t⟩,counted,same⟩ := Option.map_eq_some_iff.mp returns
  cases same
  by_cases empty : bytes = 0#32
  · rw [kmalloc_counted,if_pos empty] at counted
    cases counted
    exact ⟨.inl ⟨rfl,F,sound⟩,fun a _ => rfl⟩
  · rw [kmalloc_counted_loop sound fuel empty] at counted
    exact kmalloc_loop_granted positive small sound sound.head rfl counted

/-- `kmalloc` returns after at most two ways around the list. -/
theorem kmalloc_returns (sound : Sound base busy s F B) {fuel : Nat} (enough : 2^33 < fuel) (bytes : Word) :
    ∃ r, kmalloc fuel base s bytes = some r := by
  by_cases empty : bytes = 0#32
  · rw [kmalloc,kmalloc_counted,if_pos empty]
    exact ⟨_,rfl⟩
  · obtain ⟨positive,small⟩ := request_units_bounds bytes
    obtain ⟨p,s',n,found,_⟩ := kmalloc_loop_outcome sound positive small enough
    rw [kmalloc,kmalloc_counted_loop sound fuel empty,found]
    exact ⟨(p,s'),rfl⟩

end Kmalloc

end SoKernel.Kmalloc
