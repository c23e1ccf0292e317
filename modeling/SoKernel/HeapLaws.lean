import SoKernel.HeapRuns

/-!
Laws of the kernel heap. A request that cannot be met changes nothing, after one
attempt to get more frames. One that is met gets what it has asked for, unless its size
wraps around. And the free list is a function of the live blocks, so
that freeing has the same effect in every order, and undoes a request that was met
from the list.
-/
namespace SoKernel.HeapLaws
open SoKernel.Words SoKernel.Pages SoKernel.Pfa SoKernel.PfaInit SoKernel.FrameOwnership SoKernel.Ring SoKernel.FreeList
  SoKernel.Kheap SoKernel.Kmalloc SoKernel.HeapRuns
set_option linter.unusedSimpArgs false

/-! ### Requests that fail -/

/-- The units for a request, with its header, as a number. -/
def exact_units (bytes : Word) : Nat := (bytes.toNat+7)/8+1
/-- The pages for these units. -/
def exact_pages (bytes : Word) : Nat := (8*exact_units bytes+4095)/4096

theorem request_units_le (bytes : Word) : (request_units bytes).toNat ≤ exact_units bytes := by
  simp only [request_units,sizeof_Header,exact_units,BitVec.toNat_add,BitVec.toNat_udiv,BitVec.toNat_sub,
    BitVec.toNat_ofNat,Nat.reducePow,Nat.reduceMod]
  omega

/-- Below 4 GiB nothing wraps around on the way from bytes to pages. -/
theorem core_pages_exact {bytes : Word} (fits : 8*exact_units bytes+4095 < 2^32) :
    (core_pages (request_units bytes)).toNat = exact_pages bytes := by
  have units : (request_units bytes).toNat = exact_units bytes := by
    simp only [exact_units] at fits
    simp only [request_units,sizeof_Header,exact_units,BitVec.toNat_add,BitVec.toNat_udiv,BitVec.toNat_sub,
      BitVec.toNat_ofNat,Nat.reducePow,Nat.reduceMod]
    omega
  simp only [core_pages,sizeof_Header,PAGE_SIZE,BitVec.toNat_udiv,BitVec.toNat_sub,BitVec.toNat_add,BitVec.toNat_mul,
    BitVec.toNat_ofNat,Nat.reducePow,Nat.reduceMod,units,exact_pages]
  omega

/-- A page number that wraps around stands for more pages than there are, apart from frame 0. -/
theorem no_exact_run {frames : Frames} {bytes : Word} (zero : is_used frames 0 = true)
    (noCore : NoCore frames (request_units bytes)) :
    ¬ ∃ r, r+exact_pages bytes ≤ MAX_FRAMES ∧ FreeRun frames r (exact_pages bytes) := by
  rintro ⟨r,inside,free⟩
  by_cases fits : 8*exact_units bytes+4095 < 2^32
  · have pages := core_pages_exact fits
    rcases noCore with none | noRun
    · rw [none] at pages
      simp only [exact_pages,exact_units,BitVec.toNat_ofNat] at pages
      omega
    · rw [pages] at noRun
      exact noRun r inside free
  · have whole : 2^20 ≤ exact_pages bytes := by
      simp only [exact_pages]
      omega
    simp only [MAX_FRAMES] at inside
    have unused := free 0 (by omega) (by omega)
    rw [zero] at unused
    cases unused

/-- The first free block behind the head of the list, or the sentinel when there is none. -/
def first_block (base : Word) (s : Heap) : Word :=
  if s_next s.mem s.freep = base then s_next s.mem base else s_next s.mem s.freep

/-- A single unit would be taken from the end of memory: the first free block ends
    there or, when there is no free block, the last frame is the only free one. -/
def AtTop (base : Word) (s : Heap) : Prop :=
  if first_block base s = base then is_used s.frames 0xFFFFF = false ∧ ∀ f < 0xFFFFF, is_used s.frames f = true
  else (first_block base s).toNat+8*(s_units s.mem (first_block base s)).toNat = 2^32

section OneUnit
variable {base : Word} {busy : Nat → Prop} {s : Heap} {F B : Finset Word}

theorem first_block_mem (sound : Sound base busy s F B) : first_block base s ∈ F := by
  rw [first_block]
  split
  · exact (sound.shape.ring base sound.shape.sentinel).1
  · exact (sound.shape.ring s.freep sound.head).1

/-- When the first block is the sentinel, there is no other one. -/
theorem first_block_alone (sound : Sound base busy s F B) (isBase : first_block base s = base) : F = {base} := by
  have alone : s_next s.mem base = base := by
    rw [first_block] at isBase
    split at isBase
    · exact isBase
    · contradiction
  have ring := sound.shape.ring base sound.shape.sentinel
  rw [alone] at ring
  exact Finset.eq_singleton_iff_unique_mem.mpr ⟨sound.shape.sentinel,fun a member => isNext_self ring member⟩

/-- A request for one unit takes the upper unit of the first block. -/
theorem one_unit_listed (sound : Sound base busy s F B) (notBase : first_block base s ≠ base) (fuel : Nat) :
    ∃ h s', kmalloc_loop base 1#32 (fuel+2) s s.freep (s_next s.mem s.freep) = some (0,header_add h 1#32,s') ∧
      Carved base busy B 1#32 s h s' ∧
      h.toNat+8 = (first_block base s).toNat+8*(s_units s.mem (first_block base s)).toNat := by
  have shape := sound.shape
  have enough : 1#32 ≤ s_units s.mem (first_block base s) := by
    have positive := (shape.parts.unit _ (mem_blocks.mpr (.inl ⟨notBase,first_block_mem sound⟩))).2
    exact BitVec.le_def.mpr positive
  by_cases around : s_next s.mem s.freep = base
  · have first : first_block base s = s_next s.mem base := if_pos around
    have notHead : base ≠ s.freep := by
      intro same
      rw [← same] at around
      exact notBase (first.trans around)
    rw [first] at enough ⊢
    rw [around,kmalloc_loop,if_neg (by rw [shape.empty]; decide),if_neg notHead]
    exact fitting_block sound (by decide) shape.sentinel rfl enough fuel
  · have first : first_block base s = s_next s.mem s.freep := if_neg around
    rw [first] at enough ⊢
    exact fitting_block sound (by decide) sound.head rfl enough (fuel+1)

/-- The one free block that `morecore` makes of a page for an empty list is that page. -/
theorem grown_page {s' : Heap} {F' : Finset Word} {r : Nat} (sound : Sound base busy s {base} B)
    (grown : Grown base busy B 1#32 s s' F' r) :
    first_block base s' ≠ base ∧
      (first_block base s').toNat+8*(s_units s'.mem (first_block base s')).toNat = (r+1)*4096 := by
  have shape := sound.shape
  have shape' := grown.sound.shape
  have fits : r+1 ≤ 1048576 := grown.fits
  have isBlock : ∀ {a}, a ∈ F' → a ≠ base → a ∈ blocks base F' B := fun member other =>
    mem_blocks.mpr (.inl ⟨other,member⟩)
  -- The live blocks have all the pages from before, so that the free ones lie in the new page.
  have inPage : ∀ a ∈ F', a ≠ base → ∀ x, Covers (s_units s'.mem) a x → r*4096 ≤ x ∧ x < r*4096+4096 := by
    intro a member other x covers
    have held : Region s'.cores x := shape'.parts.inside a (isBlock member other) x covers
    rw [grown.cores,region_cons (by omega)] at held
    rcases held with old | new
    · obtain ⟨b,block,covers'⟩ := shape.parts.covered x old
      have live : b ∈ B := by simpa [mem_blocks] using block
      rw [Covers,← grown.others b live] at covers'
      have same := shape'.parts.apart a (isBlock member other) b (mem_blocks.mpr (.inr live)) x covers covers'
      exact absurd (same ▸ live) (shape'.notLive a member)
    · simpa using new
  obtain ⟨a,member,large⟩ := grown.large
  have units : 512 ≤ (s_units s'.mem a).toNat := by simpa using large
  have notBase : a ≠ base := by
    rintro rfl
    rw [shape'.empty] at units
    simp at units
  have start := inPage a member notBase a.toNat ⟨le_refl _,by omega⟩
  have last := inPage a member notBase (a.toNat+8*(s_units s'.mem a).toNat-1) ⟨by omega,by omega⟩
  have only : ∀ b ∈ F', b ≠ base → b = a := by
    intro b memberB other
    have block := isBlock memberB other
    have startB := inPage b memberB other b.toNat (covers_start shape'.parts block)
    exact start_inside shape'.parts (isBlock member notBase) block ⟨by omega,by omega⟩
  have firstNot : first_block base s' ≠ base := by
    intro isBase
    have alone := first_block_alone grown.sound isBase
    rw [alone] at member
    exact notBase (Finset.mem_singleton.mp member)
  refine ⟨firstNot,?_⟩
  rw [only _ (first_block_mem grown.sound) firstNot]
  omega

/-- With an empty list a request for one unit takes the upper unit of the lowest free page. -/
theorem one_unit_core (sound : Sound base busy s F B) (isBase : first_block base s = base) {fuel : Nat}
    (enough : 2^33 < fuel) :
    ∃ n p s', kmalloc_loop base 1#32 fuel s s.freep (s_next s.mem s.freep) = some (n,p,s') ∧
      ((p = 0#32 ∧ s' = s ∧ ∀ f < MAX_FRAMES, is_used s.frames f = true) ∨
        ∃ h r, p = header_add h 1#32 ∧ h.toNat+8 = (r+1)*4096 ∧ is_used s.frames r = false ∧
          (∀ f < r, is_used s.frames f = true) ∧ is_used s'.frames r = true) := by
  have alone := first_block_alone sound isBase
  subst alone
  have shape := sound.shape
  have head : s.freep = base := Finset.mem_singleton.mp sound.head
  have next : s_next s.mem base = base := Finset.mem_singleton.mp (shape.ring base shape.sentinel).1
  have pages : core_pages 1#32 = 1#32 := by decide
  have single : ∀ f, FreeRun s.frames f 1 ↔ is_used s.frames f = false := by
    intro f
    constructor
    · exact fun run => run f (le_refl _) (by omega)
    · intro free g low high
      rw [show g = f by omega]
      exact free
  obtain ⟨fuel,rfl⟩ : ∃ n, fuel = n+3 := ⟨fuel-3,by omega⟩
  obtain ⟨⟨p,t⟩,called⟩ : ∃ r, morecore (fuel+2) base s 1#32 = some r := morecore_returns sound (by omega)
  rw [head,next,kmalloc_loop,if_neg (by rw [shape.empty]; decide),if_pos head.symm,called,Option.bind_some]
  rcases morecore_sound sound (by decide) called with ⟨rfl,rfl,noCore⟩ | ⟨nonzero,_,F',r,grown⟩
  · refine ⟨1,0#32,t,if_pos rfl,.inl ⟨rfl,rfl,?_⟩⟩
    intro f inside
    by_contra unused
    rcases noCore with zero | noRun
    · rw [pages] at zero
      cases zero
    · rw [pages] at noRun
      exact noRun f inside ((single f).mpr (by simpa using unused))
  · rw [pages] at grown
    obtain ⟨notBase,ends⟩ := grown_page sound grown
    obtain ⟨h,s',found,carved,upper⟩ := one_unit_listed grown.sound notBase fuel
    rw [if_neg nonzero,found]
    refine ⟨1,_,s',rfl,.inr ⟨h,r,rfl,upper.trans ends,(single r).mp grown.free,?_,?_⟩⟩
    · intro f below
      by_contra unused
      exact grown.least f below ((single f).mpr (by simpa using unused))
    · have fits : r+1 ≤ 1048576 := grown.fits
      rw [carved.kept.frames]
      refine grown.sound.coreUsed r ⟨⟨pageAddr r,1#32⟩,by rw [grown.cores]; exact List.mem_cons_self,?_⟩
      simp only [Allocation.Holds]
      rw [pageAddr_toNat (by omega)]
      simp

/-- The pointer behind a header is null at the end of memory. -/
theorem pointer_null {h : Word} (fits : h.toNat+8 ≤ 2^32) : header_add h 1#32 = 0#32 ↔ h.toNat+8 = 2^32 := by
  rw [header_add,sizeof_Header]
  bv_omega

/-- A request for one unit is answered with null although it is met, or fails cleanly. -/
theorem one_unit_null (sound : Sound base busy s F B) {fuel n : Nat} (enough : 2^33 < fuel) {p : Word} {s' : Heap}
    (returns : kmalloc_loop base 1#32 fuel s s.freep (s_next s.mem s.freep) = some (n,p,s')) :
    (AtTop base s ∧ p = 0#32 ∧ ((∃ a ∈ F, 1#32 ≤ s_units s.mem a) ∨ s' ≠ s)) ∨
      (¬ AtTop base s ∧ (p = 0#32 → (∀ a ∈ F, ¬ 1#32 ≤ s_units s.mem a) ∧ s' = s ∧ NoCore s.frames 1#32)) := by
  by_cases isBase : first_block base s = base
  · obtain ⟨_,q,t,found,result⟩ := one_unit_core sound isBase enough
    cases found.symm.trans returns
    rw [AtTop,if_pos isBase]
    rcases result with ⟨_,same,used⟩ | ⟨h,r,rfl,ends,free,least,taken⟩
    · refine .inr ⟨?_,fun _ => ⟨?_,same,.inr ?_⟩⟩
      · rintro ⟨unused,_⟩
        rw [used 0xFFFFF (by decide)] at unused
        cases unused
      · intro a member fits
        rw [first_block_alone sound isBase,Finset.mem_singleton] at member
        rw [member,sound.shape.empty] at fits
        exact absurd fits (by decide)
      · intro f inside run
        have pages : core_pages 1#32 = 1#32 := by decide
        rw [pages] at inside run
        have unused := run f (le_refl _) (by simp)
        rw [used f (by simpa using inside)] at unused
        cases unused
    · have bound := h.isLt
      by_cases top : r = 0xFFFFF
      · subst top
        refine .inl ⟨⟨free,least⟩,(pointer_null (by omega)).mpr ends,.inr ?_⟩
        rintro rfl
        rw [taken] at free
        cases free
      · refine .inr ⟨?_,fun zero => ?_⟩
        · rintro ⟨_,others⟩
          rw [others r (by omega)] at free
          cases free
        · have := (pointer_null (by omega)).mp zero
          omega
  · obtain ⟨fuel,rfl⟩ : ∃ n, fuel = n+2 := ⟨fuel-2,by omega⟩
    obtain ⟨h,t,found,_,ends⟩ := one_unit_listed sound isBase fuel
    cases found.symm.trans returns
    have block := mem_blocks.mpr (.inl ⟨isBase,first_block_mem sound⟩ : (_ ≠ base ∧ _ ∈ F) ∨ _ ∈ B)
    have positive := (sound.shape.parts.unit _ block).2
    have fits := block_end sound.shape.parts block
    rw [AtTop,if_neg isBase,pointer_null (by omega),ends]
    by_cases top : (first_block base s).toNat+8*(s_units s.mem (first_block base s)).toNat = 2^32
    · exact .inl ⟨top,top,.inl ⟨_,first_block_mem sound,BitVec.le_def.mpr positive⟩⟩
    · exact .inr ⟨top,fun zero => absurd zero top⟩

end OneUnit

/-- `kmalloc` returns after at most one call of `morecore`. When it returns null for a
    request of some bytes, no free block has the units it looks for, no run of free
    frames has the pages of the request, and nothing has changed. -/
def FailsCleanly (fuel : Nat) (base : Word) (s : Heap) (F : Finset Word) (bytes : Word) : Prop :=
  ∃ p s' n, kmalloc fuel base s bytes = some (p,s') ∧ kmalloc_calls fuel base s bytes = some n ∧ n ≤ 1 ∧
    (bytes ≠ 0#32 → p = 0#32 →
      (∀ a ∈ F, (s_units s.mem a).toNat < (request_units bytes).toNat ∧ (s_units s.mem a).toNat < exact_units bytes) ∧
      (¬ ∃ r, r+exact_pages bytes ≤ MAX_FRAMES ∧ FreeRun s.frames r (exact_pages bytes)) ∧ s' = s)

theorem request_one_unit {bytes : Word} (nonzero : bytes ≠ 0#32) :
    (request_units bytes).toNat = 1 ↔ 0xFFFFFFF8 < bytes.toNat := by
  have positive : bytes.toNat ≠ 0 := fun zero => nonzero (BitVec.eq_of_toNat_eq zero)
  have bound := bytes.isLt
  simp only [request_units,sizeof_Header,BitVec.toNat_add,BitVec.toNat_udiv,BitVec.toNat_sub,BitVec.toNat_ofNat,
    Nat.reducePow,Nat.reduceMod]
  omega

/-- On every well-formed heap every request fails cleanly, but for those that are rounded
    to one unit and would be met from the end of memory. -/
theorem kmalloc_fails_cleanly {base : Word} {busy : Nat → Prop} {s : Heap} {F B : Finset Word}
    (sound : Sound base busy s F B) {fuel : Nat} (enough : 2^33 < fuel) (bytes : Word) :
    FailsCleanly fuel base s F bytes ↔ bytes.toNat ≤ 0xFFFFFFF8 ∨ ¬ AtTop base s := by
  have zero : is_used s.frames 0 = true := (sound.busyUsed 0 (sound.guarded 0 (.inl rfl))).1
  rw [FailsCleanly,kmalloc,kmalloc_calls]
  by_cases empty : bytes = 0#32
  · rw [kmalloc_counted,if_pos empty]
    subst empty
    exact iff_of_true ⟨0#32,s,0,rfl,rfl,by omega,fun nonzero => absurd rfl nonzero⟩ (.inl (by decide))
  · obtain ⟨positive,small⟩ := request_units_bounds bytes
    obtain ⟨p,s',n,found,once,outcome⟩ := kmalloc_loop_outcome sound positive small enough
    rw [kmalloc_counted_loop sound fuel empty,found,Option.map_some,Option.map_some]
    -- What is left of the property once the calls are known.
    have clean : (∀ a ∈ F, ¬ request_units bytes ≤ s_units s.mem a) ∧ s' = s ∧ NoCore s.frames (request_units bytes) →
        (∀ a ∈ F, (s_units s.mem a).toNat < (request_units bytes).toNat ∧ (s_units s.mem a).toNat < exact_units bytes) ∧
          (¬ ∃ r, r+exact_pages bytes ≤ MAX_FRAMES ∧ FreeRun s.frames r (exact_pages bytes)) ∧ s' = s := by
      rintro ⟨none,same,noCore⟩
      refine ⟨fun a inside => ?_,no_exact_run zero noCore,same⟩
      have less := none a inside
      have exactly := request_units_le bytes
      rw [BitVec.le_def] at less
      exact ⟨by omega,by omega⟩
    by_cases huge : 0xFFFFFFF8 < bytes.toNat
    · have one : request_units bytes = 1#32 := BitVec.eq_of_toNat_eq ((request_one_unit empty).mpr huge)
      rw [one] at found clean ⊢
      rcases one_unit_null sound enough found with ⟨top,null,bad⟩ | ⟨notTop,failed⟩
      · refine iff_of_false ?_ (not_or.mpr ⟨by omega,not_not.mpr top⟩)
        rintro ⟨q,t,_,same,_,_,rest⟩
        cases same
        obtain ⟨none,_,same⟩ := rest empty null
        rcases bad with ⟨a,member,fits⟩ | changed
        · have := (none a member).1
          rw [BitVec.le_def] at fits
          omega
        · exact changed same
      · exact iff_of_true ⟨p,s',n,rfl,rfl,once,fun _ null => clean (failed null)⟩ (.inr notTop)
    · refine iff_of_true ⟨p,s',n,rfl,rfl,once,fun _ null => clean ?_⟩ (.inl (by omega))
      rcases outcome with ⟨_,failed⟩ | ⟨t,h,rfl,carved⟩
      · exact failed
      · exact absurd ((request_one_unit empty).mp (carved_null carved null).2) huge

/-- For a request of 0xFFFFFFF0 bytes the number of pages wraps around to 0. -/
theorem huge_request_refused (frames : Frames) (fuel : Nat) :
    kmalloc (fuel+1) pcBase (opening pcBase frames (fun _ => 0#8)).heap 0xFFFFFFF0#32 =
      some (0#32,(opening pcBase frames (fun _ => 0#8)).heap) := by
  let m₀ := set_units (set_next (fun _ => 0#8) pcBase pcBase) pcBase 0#32
  have heap : (opening pcBase frames (fun _ => 0#8)).heap = ⟨frames,m₀,pcBase,[]⟩ := rfl
  have start : s_next m₀ pcBase = pcBase ∧ s_units m₀ pcBase = 0#32 := by decide +kernel
  have pages : core_pages (request_units 0xFFFFFFF0#32) = 0#32 := by decide
  have refused : morecore fuel pcBase ⟨frames,m₀,pcBase,[]⟩ (request_units 0xFFFFFFF0#32) =
      some (0#32,⟨frames,m₀,pcBase,[]⟩) := by
    simp only [morecore,pages,pfa_alloc_contiguous,if_true]
  rw [kmalloc,kmalloc_counted,if_neg (by decide),heap]
  simp only [if_neg (show ¬ pcBase = 0#32 by decide),start.1]
  rw [kmalloc_loop,if_neg (by simp only [start.2]; decide),if_pos rfl,refused,Option.bind_some,if_pos rfl]
  rfl

theorem kmalloc_fails_cleanly_pc : ∃ frames n, pc.init 3 = some frames ∧
    kmalloc (2^33+1) pcBase (opening pcBase frames (fun _ => 0#8)).heap 0xFFFFFFF0#32 =
      some (0#32,(opening pcBase frames (fun _ => 0#8)).heap) ∧
    kmalloc_calls (2^33+1) pcBase (opening pcBase frames (fun _ => 0#8)).heap 0xFFFFFFF0#32 = some n ∧ n ≤ 1 ∧
    ¬ ∃ r, r+exact_pages 0xFFFFFFF0#32 ≤ MAX_FRAMES ∧ FreeRun frames r (exact_pages 0xFFFFFFF0#32) := by
  obtain ⟨frames,ended⟩ := pc_init
  obtain ⟨p,s',n,found,calls,once,failed⟩ :=
    (kmalloc_fails_cleanly (pc_sound ended) (show 2^33 < 2^33+1 by decide) 0xFFFFFFF0#32).mpr (.inl (by decide))
  have refused := huge_request_refused frames (2^33)
  cases refused.symm.trans found
  exact ⟨frames,n,ended,refused,calls,once,(failed (by decide) rfl).2.1⟩

/-- Only the last frame of the address space is free. -/
def lastFree : Frames := mark_free all_used 0xFFFFF

theorem lastFree_found : ∃ frames', pfa_alloc_contiguous lastFree 1#32 = (0xFFFFF000#32,frames') ∧
    is_used frames' 0xFFFFF = true := by
  have free : ∀ f, is_used lastFree f = false ↔ f = 0xFFFFF := by
    intro f
    simp [lastFree]
  rcases pfa_alloc_contiguous_cases lastFree 1#32 with ⟨_,zeroCount | none⟩ | ⟨r,_,_,run,_,found⟩
  · cases zeroCount
  · refine absurd (fun g low high => ?_) (none 0xFFFFF (by decide))
    exact (free g).mpr (by simp only [BitVec.toNat_ofNat] at high; omega)
  · obtain rfl := (free r).mp (run r (le_refl _) (by simp))
    exact ⟨_,found,by simp [is_used_mark_run]⟩

/-- The empty heap of the small PC beside these frames. -/
theorem lastFree_sound :
    Sound pcBase (Guarded pcBase) (opening pcBase lastFree (fun _ => 0#8)).heap {pcBase} ∅ := by
  -- The list does not depend on the allocator.
  have full : Invariant pcBase (opening pcBase all_used (fun _ => 0#8)) {pcBase} :=
    opening_invariant _ (fun f _ => is_used_all_used f) (by decide)
  have none : ∀ f, ¬ Held (opening pcBase lastFree (fun _ => 0#8)).heap.cores f := by
    rintro f ⟨k,inside,_⟩
    cases inside
  refine ⟨full.sound.shape,full.sound.head,fun f held => absurd held (none f),?_,fun f guard => guard⟩
  intro f guard
  refine ⟨?_,none f⟩
  change is_used lastFree f = true
  have notLast : f ≠ 0xFFFFF := by
    rintro rfl
    rcases guard with first | ⟨x,_,high,last⟩
    · cases first
    · simp only [pcBase,BitVec.toNat_ofNat] at high
      omega
  simp [lastFree,notLast]

/-- With only the last frame free, a request of 0xFFFFFFF9 bytes, which is rounded to one
    unit, gets the last unit of memory. The pointer behind its header is null: the
    caller sees a failure, but the frame is gone. -/
theorem last_frame_lost : ∃ h, is_used lastFree 0 = true ∧
    Sound pcBase (Guarded pcBase) (opening pcBase lastFree (fun _ => 0#8)).heap {pcBase} ∅ ∧
    kmalloc 5 pcBase (opening pcBase lastFree (fun _ => 0#8)).heap 0xFFFFFFF9#32 = some (0#32,h) ∧
    is_used (opening pcBase lastFree (fun _ => 0#8)).heap.frames 0xFFFFF = false ∧ is_used h.frames 0xFFFFF = true ∧
    ¬ FailsCleanly 5 pcBase (opening pcBase lastFree (fun _ => 0#8)).heap {pcBase} 0xFFFFFFF9#32 := by
  obtain ⟨frames',found,used⟩ := lastFree_found
  have request : request_units 0xFFFFFFF9#32 = 1#32 := by decide
  obtain ⟨h,returns,_,frames,_⟩ := first_request (.inr rfl) found (by decide) request (by decide) (by decide) 3
  rw [show header_add (header_add 0xFFFFF000#32 (512#32-1#32)) 1#32 = 0#32 by decide] at returns
  have unused : is_used (opening pcBase lastFree (fun _ => 0#8)).heap.frames 0xFFFFF = false := by
    change is_used lastFree 0xFFFFF = false
    simp [lastFree]
  rw [← frames] at used
  refine ⟨h,by simp [lastFree],lastFree_sound,returns,unused,used,?_⟩
  rintro ⟨p,t,_,again,_,_,clean⟩
  cases returns.symm.trans again
  rw [(clean (by decide) rfl).2.2,unused] at used
  cases used

/-! ### What a request gets -/

/-- Up to 0xFFFFFFF8 bytes the rounding to units does not wrap around. -/
theorem request_units_enough {bytes : Word} (small : bytes.toNat ≤ 0xFFFFFFF8) :
    bytes.toNat ≤ 8*((request_units bytes).toNat-1) := by
  simp only [request_units,sizeof_Header,BitVec.toNat_add,BitVec.toNat_udiv,BitVec.toNat_sub,BitVec.toNat_ofNat,
    Nat.reducePow,Nat.reduceMod]
  omega

/-- `kmalloc` returns and, if the pointer is not null, the block behind it has enough payload,
    at a multiple of eight and in frames that `morecore` has obtained. -/
def GivesEnough (fuel : Nat) (base : Word) (s : Heap) (bytes : Word) : Prop :=
  ∃ p s', kmalloc fuel base s bytes = some (p,s') ∧ (p ≠ 0#32 →
    bytes.toNat ≤ 8*((s_units s'.mem (p-sizeof_Header)).toNat-1) ∧ p.toNat % 8 = 0 ∧
      ∀ y, p.toNat ≤ y → y < p.toNat+8*((s_units s'.mem (p-sizeof_Header)).toNat-1) →
        Region s'.cores y ∧ is_used s'.frames (y/4096) = true)

/-- There is no unit to be had below the last one of memory: the first free block ends there
    or, when there is no free block, no frame but the last one can be free. -/
def NoUnit (base : Word) (s : Heap) : Prop :=
  if first_block base s = base then ∀ f < 0xFFFFF, is_used s.frames f = true
  else (first_block base s).toNat+8*(s_units s.mem (first_block base s)).toNat = 2^32

section Gives
variable {base : Word} {busy : Nat → Prop} {s s' : Heap} {F B : Finset Word}

/-- The block behind a pointer that is not null has the units of the request. -/
theorem granted_block (sound : Sound base busy s F B) {fuel : Nat} {bytes p : Word}
    (returns : kmalloc fuel base s bytes = some (p,s')) (granted : p ≠ 0#32) :
    s_units s'.mem (p-sizeof_Header) = request_units bytes ∧ p.toNat % 8 = 0 ∧
      ∀ y, p.toNat ≤ y → y < p.toNat+8*((request_units bytes).toNat-1) →
        Region s'.cores y ∧ is_used s'.frames (y/4096) = true := by
  rcases (kmalloc_granted sound returns).result with ⟨zero,_⟩ | ⟨h,F',rfl,_,units,sound'⟩
  · exact absurd zero granted
  rw [header_back]
  have parts := sound'.shape.parts
  have block : h ∈ blocks base F' (insert h B) := mem_blocks.mpr (.inr (Finset.mem_insert_self h B))
  have ends := block_end parts block
  have positive := (request_units_bounds bytes).1
  rw [units] at ends
  have below : h.toNat+8 < 2^32 := by
    by_contra top
    refine granted (BitVec.eq_of_toNat_eq ?_)
    rw [header_add,sizeof_Header,BitVec.toNat_add,BitVec.toNat_mul]
    simp only [BitVec.toNat_ofNat]
    omega
  have payload : (header_add h 1#32).toNat = h.toNat+8 := header_add_toNat (by simpa using below)
  refine ⟨units,?_,?_⟩
  · have aligned := (parts.unit h block).1
    omega
  · intro y low high
    have held : Region s'.cores y := parts.inside h block y ⟨by omega,by rw [units]; omega⟩
    exact ⟨held,sound'.coreUsed _ held⟩

/-- A request for one unit is answered with null when there is none to be had. -/
theorem one_unit_zero (sound : Sound base busy s F B) {fuel n : Nat} (enough : 2^33 < fuel) {p : Word}
    (returns : kmalloc_loop base 1#32 fuel s s.freep (s_next s.mem s.freep) = some (n,p,s')) :
    p = 0#32 ↔ NoUnit base s := by
  by_cases isBase : first_block base s = base
  · obtain ⟨_,q,t,found,result⟩ := one_unit_core sound isBase enough
    cases found.symm.trans returns
    rw [NoUnit,if_pos isBase]
    rcases result with ⟨null,_,used⟩ | ⟨h,r,rfl,ends,free,least,_⟩
    · exact iff_of_true null (fun f below => used f (Nat.lt_trans below (by decide)))
    · have bound := h.isLt
      rw [pointer_null (by omega),ends]
      constructor
      · intro top f below
        exact least f (by omega)
      · intro used
        have last : ¬ r < 0xFFFFF := by
          intro below
          rw [used r below] at free
          cases free
        omega
  · obtain ⟨fuel,rfl⟩ : ∃ n, fuel = n+2 := ⟨fuel-2,by omega⟩
    obtain ⟨h,t,found,_,ends⟩ := one_unit_listed sound isBase fuel
    cases found.symm.trans returns
    have block := mem_blocks.mpr (.inl ⟨isBase,first_block_mem sound⟩ : (_ ≠ base ∧ _ ∈ F) ∨ _ ∈ B)
    have fits := block_end sound.shape.parts block
    rw [NoUnit,if_neg isBase,pointer_null (by omega),ends]

/-- On every well-formed heap a request gets enough exactly when it is for at most 0xFFFFFFF8
    bytes, or gets nothing: a larger one is rounded to one unit, which is a header without
    payload. -/
theorem kmalloc_gives_enough (sound : Sound base busy s F B) {fuel : Nat} (enough : 2^33 < fuel) (bytes : Word) :
    GivesEnough fuel base s bytes ↔ bytes.toNat ≤ 0xFFFFFFF8 ∨ NoUnit base s := by
  obtain ⟨⟨p,s'⟩,returns⟩ := kmalloc_returns sound enough bytes
  by_cases small : bytes.toNat ≤ 0xFFFFFFF8
  · refine iff_of_true ⟨p,s',returns,fun granted => ?_⟩ (.inl small)
    obtain ⟨units,aligned,inside⟩ := granted_block sound returns granted
    rw [units]
    exact ⟨request_units_enough small,aligned,inside⟩
  · have nonzero : bytes ≠ 0#32 := by
      rintro rfl
      exact small (by decide)
    have one : request_units bytes = 1#32 := BitVec.eq_of_toNat_eq ((request_one_unit nonzero).mpr (by omega))
    have found := returns
    rw [kmalloc,kmalloc_counted_loop sound fuel nonzero,one] at found
    obtain ⟨⟨n,q,t⟩,looped,same⟩ := Option.map_eq_some_iff.mp found
    cases same
    have null := one_unit_zero sound enough looped
    constructor
    · rintro ⟨q,t,again,gives⟩
      cases returns.symm.trans again
      refine .inr (null.mp ?_)
      by_contra granted
      have payload := (gives granted).1
      rw [(granted_block sound returns granted).1,one] at payload
      simp only [BitVec.toNat_ofNat] at payload
      omega
    · rintro (isSmall | noUnit)
      · exact absurd isSmall small
      · exact ⟨p,s',returns,fun granted => absurd (null.mpr noUnit) granted⟩

end Gives

theorem kmalloc_gives_enough_pc : ∃ frames s', pc.init 3 = some frames ∧
    kmalloc (2^33+2) pcBase (opening pcBase frames (fun _ => 0#8)).heap 10#32 = some (0x1FF0#32,s') ∧
    10 ≤ 8*((s_units s'.mem 0x1FE8#32).toNat-1) := by
  obtain ⟨frames,ended⟩ := pc_init
  obtain ⟨frames',found⟩ := pc_first_page ended
  have request : request_units 10#32 = 3#32 := by decide
  obtain ⟨s',returns,_⟩ := first_request (.inl rfl) found (by decide) request (by decide) (by decide) (2^33)
  rw [show header_add (header_add 0x1000#32 (512#32-3#32)) 1#32 = 0x1FF0#32 by decide] at returns
  obtain ⟨p,t,again,gives⟩ := (kmalloc_gives_enough (pc_sound ended) (show 2^33 < 2^33+2 by decide) 10#32).mpr
    (.inl (by decide))
  cases returns.symm.trans again
  exact ⟨frames,s',ended,returns,(gives (by decide)).1⟩

/-- A request of 0xFFFFFFF9 bytes is rounded to one unit, and what it gets is a
    pointer to the end of the page behind a header without payload. -/
theorem huge_request_granted : ∃ frames s' F B, pc.init 3 = some frames ∧
    Sound pcBase (Busy pcBase (fun _ => False)) (opening pcBase frames (fun _ => 0#8)).heap F B ∧
    kmalloc 5 pcBase (opening pcBase frames (fun _ => 0#8)).heap 0xFFFFFFF9#32 = some (0x2000#32,s') ∧
    8*((s_units s'.mem (0x2000#32-sizeof_Header)).toNat-1) = 0 ∧
    ¬ GivesEnough 5 pcBase (opening pcBase frames (fun _ => 0#8)).heap 0xFFFFFFF9#32 := by
  obtain ⟨frames,ended⟩ := pc_init
  obtain ⟨frames',found⟩ := pc_first_page ended
  have request : request_units 0xFFFFFFF9#32 = 1#32 := by decide
  obtain ⟨s',returns,units,_⟩ := first_request (.inl rfl) found (by decide) request (by decide) (by decide) 3
  rw [show header_add (header_add 0x1000#32 (512#32-1#32)) 1#32 = 0x2000#32 by decide] at returns
  have units' : s_units s'.mem (0x2000#32-sizeof_Header) = 1#32 := units
  refine ⟨frames,s',_,_,ended,pc_sound ended,returns,by rw [units']; rfl,?_⟩
  rintro ⟨p,t,again,gives⟩
  cases returns.symm.trans again
  have payload := (gives (by decide)).1
  rw [units'] at payload
  exact absurd payload (by decide)

/-! ### The free list as a function of the live blocks -/

/-- The members of the free list, followed from `freep`. -/
def OnList (s : Heap) : Word → Prop := Relation.ReflTransGen (fun a b => s_next s.mem a = b) s.freep

/-- The free blocks: where they start and how many units they have. -/
def freeSet (base : Word) (s : Heap) : Set Extent :=
  {e | ∃ a, OnList s a ∧ a ≠ base ∧ e = ⟨a.toNat,(s_units s.mem a).toNat⟩}

section Lists
variable {base : Word} {s s' : Heap} {F F' B : Finset Word} {P : Nat → Prop}

/-- Every member is met on the way around the ring. -/
theorem reaches (shape : Heaped s.mem base F B P) {a c : Word} (target : a ∈ F) (start : c ∈ F) :
    Relation.ReflTransGen (fun x y => s_next s.mem x = y) c a := by
  induction way : (a-c).toNat using Nat.strong_induction_on generalizing c with
  | _ n ih =>
    by_cases here : a = c
    · rw [here]
    · have step := shape.ring c start
      have rest := way_after (step.2 a target)
      rw [way_gap here] at way
      exact .head rfl (ih _ (by omega) step.1 rfl)

theorem onList_iff (shape : Heaped s.mem base F B P) (head : s.freep ∈ F) (a : Word) : OnList s a ↔ a ∈ F := by
  constructor
  · intro reached
    induction reached with
    | refl => exact head
    | tail _ next ih => exact next ▸ (shape.ring _ ih).1
  · exact fun member => reaches shape member head

/-- Two heaps with the same live blocks in the same pages have the same free blocks. -/
theorem freeSet_eq (shape : Heaped s.mem base F B P) (head : s.freep ∈ F) (shape' : Heaped s'.mem base F' B P)
    (head' : s'.freep ∈ F') (same : ∀ a ∈ B, s_units s'.mem a = s_units s.mem a) : freeSet base s' = freeSet base s := by
  obtain ⟨rfl,sizes⟩ := shape_unique shape shape' same
  ext e
  constructor
  · rintro ⟨a,reached,notBase,rfl⟩
    have member := (onList_iff shape' head' a).mp reached
    exact ⟨a,(onList_iff shape head a).mpr member,notBase,by rw [sizes a member]⟩
  · rintro ⟨a,reached,notBase,rfl⟩
    have member := (onList_iff shape head a).mp reached
    exact ⟨a,(onList_iff shape' head' a).mpr member,notBase,by rw [sizes a member]⟩

/-- `kfree` on one pointer after another. -/
def kfree_all (fuel : Nat) (base : Word) : Heap → List Word → Option Heap
  | s, [] => some s
  | s, p :: rest => (kfree fuel base s p).bind fun s => kfree_all fuel base s rest

/-- Freeing some of the live blocks leaves the others and their units. -/
theorem kfree_all_shape {fuel : Nat} (enough : 2^32 ≤ fuel) {xs : List Word} (shape : Heaped s.mem base F B P)
    (head : s.freep ∈ F) (distinct : xs.Nodup) (live : ∀ x ∈ xs, x ∈ B) (below : ∀ x ∈ xs, x.toNat+8 < 2^32) :
    ∃ s' F', kfree_all fuel base s (xs.map (header_add · 1#32)) = some s' ∧ Heaped s'.mem base F' (B \ xs.toFinset) P ∧
      s'.freep ∈ F' ∧ ∀ a ∈ B \ xs.toFinset, s_units s'.mem a = s_units s.mem a := by
  induction xs generalizing s F B with
  | nil => exact ⟨s,F,rfl,by simpa using shape,head,fun a _ => rfl⟩
  | cons x rest ih =>
    obtain ⟨notLater,distinct'⟩ := List.nodup_cons.mp distinct
    have isLive := live x List.mem_cons_self
    have low := below x List.mem_cons_self
    obtain ⟨t,freed⟩ := kfree_internal_returns shape head isLive low enough
    obtain ⟨F₁,shape₁,head₁,_,_,others⟩ := kfree_internal_shape shape head isLive low freed
    have live' : ∀ y ∈ rest, y ∈ B.erase x := by
      intro y later
      refine Finset.mem_erase.mpr ⟨?_,live y (List.mem_cons_of_mem x later)⟩
      rintro rfl
      exact notLater later
    obtain ⟨s',F',all,shape',head',units⟩ := ih shape₁ head₁ distinct' live'
      (fun y later => below y (List.mem_cons_of_mem x later))
    have left : B.erase x \ rest.toFinset = B \ (x :: rest).toFinset := by
      ext a
      simp only [Finset.mem_sdiff,Finset.mem_erase,List.toFinset_cons,Finset.mem_insert,not_or]
      tauto
    rw [left] at shape' units
    refine ⟨s',F',?_,shape',head',?_⟩
    · rw [List.map_cons,kfree_all,kfree,freed,Option.bind_some,all]
    · intro a inside
      have stays : a ∈ B.erase x := by
        rw [← left] at inside
        exact (Finset.mem_sdiff.mp inside).1
      rw [units a inside,others a stays]

end Lists

/-- In every state of every run after `pfa_init` and `kheap_init`, freeing distinct live
    blocks in two orders leaves the same free blocks, and freeing what `kmalloc` has just
    taken from the list restores the free blocks. -/
theorem free_order_irrelevant {b : Boot} {fuel : Nat} {frames : Frames} (ended : b.init fuel = some frames) {base : Word}
    (inImage : b.kernel_physical_start.toNat < base.toNat ∧ base.toNat+8 ≤ b.kernel_physical_end.toNat)
    (image : ∀ f, Shares f b.kernel_physical_start.toNat b.kernel_physical_end.toNat → is_used frames f = true)
    {m : Memory} {w : World} (run : Relation.ReflTransGen (Step base) (opening base frames m) w) :
    (∀ order order' : List LiveBlock, order.Nodup → (∀ l ∈ order, l ∈ w.live) → order.Perm order' →
      ∃ h h', kfree_all (2^34) base w.heap (order.map LiveBlock.ptr) = some h ∧
        kfree_all (2^34) base w.heap (order'.map LiveBlock.ptr) = some h' ∧ freeSet base h = freeSet base h') ∧
      ∀ fuel bytes p h, kmalloc fuel base w.heap bytes = some (p,h) → kmalloc_calls fuel base w.heap bytes = some 0 →
        p ≠ 0#32 → ∃ h', kfree (2^34) base h p = some h' ∧ freeSet base h' = freeSet base w.heap := by
  obtain ⟨F,inv⟩ := reachable_invariant ended inImage image run
  have shape := inv.sound.shape
  have head := inv.sound.head
  have pointers : ∀ order : List LiveBlock,
      order.map LiveBlock.ptr = (order.map LiveBlock.header).map (header_add · 1#32) := by
    intro order
    rw [List.map_map]
    exact List.map_congr_left (fun l _ => (header_ptr l).symm)
  refine ⟨?_,?_⟩
  · intro order order' nodup live perm
    have distinct : (order.map LiveBlock.header).Nodup := by
      refine (List.nodup_map_iff_inj_on nodup).mpr (fun k insideK l insideL same => ?_)
      exact List.inj_on_of_nodup_map inv.distinct (live k insideK) (live l insideL) same
    have inLive : ∀ x ∈ order.map LiveBlock.header, x ∈ headers w.live := by
      intro x member
      obtain ⟨l,inside,rfl⟩ := List.mem_map.mp member
      exact mem_headers.mpr ⟨l,live l inside,rfl⟩
    have perm' := perm.map LiveBlock.header
    have below : ∀ x ∈ order.map LiveBlock.header, x.toNat+8 < 2^32 := fun x member =>
      live_below inv.sound (.inr (.inl rfl)) (inLive x member)
    have enough : 2^32 ≤ 2^34 := by decide
    obtain ⟨h,F₁,freed,shape₁,head₁,units₁⟩ := kfree_all_shape enough shape head distinct inLive below
    obtain ⟨h',F₂,freed',shape₂,head₂,units₂⟩ := kfree_all_shape enough shape head (perm'.nodup_iff.mp distinct)
      (fun x member => inLive x (perm'.mem_iff.mpr member)) (fun x member => below x (perm'.mem_iff.mpr member))
    rw [← List.toFinset_eq_of_perm _ _ perm'] at shape₂ units₂
    refine ⟨h,h',by rw [pointers,freed],by rw [pointers,freed'],freeSet_eq shape₂ head₂ shape₁ head₁ ?_⟩
    intro a inside
    rw [units₁ a inside,units₂ a inside]
  · intro fuel bytes p h returns uncalled granted
    obtain ⟨⟨n,q,t⟩,counted,same⟩ := Option.map_eq_some_iff.mp returns
    cases same
    rw [kmalloc_calls,counted] at uncalled
    have none : n = 0 := Option.some_inj.mp uncalled
    by_cases empty : bytes = 0#32
    · rw [kmalloc_counted,if_pos empty] at counted
      cases counted
      exact absurd rfl granted
    · rw [kmalloc_counted_loop inv.sound fuel empty,none] at counted
      obtain ⟨x,rfl,carved⟩ := kmalloc_loop_uncalled inv.sound (request_units_bounds bytes).1 head rfl counted
      obtain ⟨F',sound'⟩ := carved.sound
      have fresh := carved.fresh
      have inside := Finset.mem_insert_self x (headers w.live)
      have below := live_below sound' (.inr (.inl rfl)) inside
      obtain ⟨h',freed⟩ := kfree_internal_returns sound'.shape sound'.head inside below (show 2^32 ≤ 2^34 by decide)
      obtain ⟨F₁,shape₁,head₁,kept,_,others⟩ := kfree_internal_shape sound'.shape sound'.head inside below freed
      rw [Finset.erase_insert fresh] at shape₁ others
      rw [carved.kept.cores] at shape₁
      refine ⟨h',freed,freeSet_eq shape head shape₁ head₁ ?_⟩
      intro a live
      rw [others a live,carved.others a live]

theorem free_order_irrelevant_pc : ∃ frames w h h', pc.init 3 = some frames ∧
    Relation.ReflTransGen (Step pcBase) (opening pcBase frames (fun _ => 0#8)) w ∧
    kfree_all (2^34) pcBase w.heap [0x1FD8#32,0x1FF0#32] = some h ∧
    kfree_all (2^34) pcBase w.heap [0x1FF0#32,0x1FD8#32] = some h' ∧ freeSet pcBase h = freeSet pcBase h' := by
  obtain ⟨frames,w,ended,run,live⟩ := pc_two_blocks
  obtain ⟨h,h',freed,freed',same⟩ := (free_order_irrelevant ended (by decide) (fun f => pc_image_used ended) run).1
    [⟨0x1FD8#32,3#32⟩,⟨0x1FF0#32,3#32⟩] [⟨0x1FF0#32,3#32⟩,⟨0x1FD8#32,3#32⟩] (by decide) (by simp [live]) (by decide)
  exact ⟨frames,w,h,h',ended,run,freed,freed',same⟩

end SoKernel.HeapLaws
