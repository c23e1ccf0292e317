import SoKernel.FrameOwnership
import SoKernel.FreeList

/-!
The kernel heap of `kheap.c`: a circular list of free blocks in address order,
whose headers lie in the blocks themselves, and runs of page frames that are
taken from the allocator when no block is large enough. The loops take the number
of their rounds; `none` means that it was not enough.
-/
namespace SoKernel.Kheap
open SoKernel.Words SoKernel.Pages SoKernel.Pfa SoKernel.FrameOwnership SoKernel.Ring SoKernel.FreeList
set_option linter.unusedSimpArgs false

/-- `sizeof(Header)`: two words. -/
def sizeof_Header : Word := 8#32

/-- `h->s.next`. -/
def s_next (m : Memory) (h : Word) : Word := read32 m h
/-- `h->s.units`. -/
def s_units (m : Memory) (h : Word) : Word := read32 m (h+4#32)
def set_next (m : Memory) (h v : Word) : Memory := write32 m h v
def set_units (m : Memory) (h v : Word) : Memory := write32 m (h+4#32) v
/-- `h + n` for a pointer to a header. -/
def header_add (h n : Word) : Word := h+n*sizeof_Header

/-- What the heap works on. The list of the runs of frames that `morecore` has
    obtained is kept beside it for the record only; no function looks at it. -/
structure Heap where
  frames : Frames
  mem : Memory
  freep : Word
  cores : List Allocation

/-- The static variable `base` lies at the address `base`. -/
def kheap_init (base : Word) (s : Heap) : Heap :=
  { s with mem := set_units (set_next s.mem base base) base 0#32, freep := base }

/-- The loop of `kfree_internal`: the member of the list behind which a block belongs. -/
def find_place (m : Memory) (block : Word) : Nat → Word → Option Word
  | 0, _ => none
  | fuel+1, curr =>
    if curr < block ∧ block < s_next m curr then some curr
    else if s_next m curr ≤ curr ∧ (curr < block ∨ block < s_next m curr) then some curr
    else find_place m block fuel (s_next m curr)

/-- The first `if` of `kfree_internal` after its loop. -/
def join_upper (m : Memory) (block curr : Word) : Memory :=
  if header_add block (s_units m block) = s_next m curr then
    let m := set_units m block (s_units m block+s_units m (s_next m curr))
    set_next m block (s_next m (s_next m curr))
  else set_next m block (s_next m curr)

/-- The second one. -/
def join_lower (m : Memory) (block curr : Word) : Memory :=
  if header_add curr (s_units m curr) = block then
    let m := set_units m curr (s_units m curr+s_units m block)
    set_next m curr (s_next m block)
  else set_next m curr block

def kfree_internal (fuel : Nat) (base : Word) (s : Heap) (ptr : Word) : Option Heap :=
  if ptr = 0#32 then some s
  else
    let block := ptr-sizeof_Header
    let s := if s.freep = 0#32 then kheap_init base s else s
    (find_place s.mem block fuel s.freep).map fun curr =>
      { s with mem := join_lower (join_upper s.mem block curr) block curr, freep := curr }

def kfree (fuel : Nat) (base : Word) (s : Heap) (ptr : Word) : Option Heap := kfree_internal fuel base s ptr

/-- The number of pages that `morecore` asks for. -/
def core_pages (units : Word) : Word :=
  let bytes := units*sizeof_Header
  (bytes+BitVec.ofNat 32 PAGE_SIZE-1#32) / BitVec.ofNat 32 PAGE_SIZE

def morecore (fuel : Nat) (base : Word) (s : Heap) (units : Word) : Option (Word × Heap) :=
  let pages := core_pages units
  let addr := pfa_alloc_contiguous s.frames pages
  if addr.1 = 0#32 then some (0#32,{ s with frames := addr.2 })
  else
    let new_block := addr.1
    let m := set_units s.mem new_block (pages*BitVec.ofNat 32 PAGE_SIZE / sizeof_Header)
    (kfree_internal fuel base { s with frames := addr.2, mem := m, cores := ⟨addr.1,pages⟩ :: s.cores }
      (header_add new_block 1#32)).map fun s => (s.freep,s)

/-- The loop of `kmalloc`, with the number of its calls of `morecore`. -/
def kmalloc_loop (base units : Word) : Nat → Heap → Word → Word → Option (Nat × Word × Heap)
  | 0, _, _, _ => none
  | fuel+1, s, prev, curr =>
    if units ≤ s_units s.mem curr then
      if s_units s.mem curr = units then
        some (0,header_add curr 1#32,{ s with mem := set_next s.mem prev (s_next s.mem curr), freep := prev })
      else
        let m := set_units s.mem curr (s_units s.mem curr-units)
        let curr := header_add curr (s_units m curr)
        some (0,header_add curr 1#32,{ s with mem := set_units m curr units, freep := prev })
    else if curr = s.freep then
      (morecore fuel base s units).bind fun more =>
        if more.1 = 0#32 then some (1,0#32,more.2)
        else (kmalloc_loop base units fuel more.2 more.2.freep (s_next more.2.mem more.2.freep)).map (Prod.map (·+1) id)
    else kmalloc_loop base units fuel s curr (s_next s.mem curr)

/-- The number of units for a request, with the header. -/
def request_units (bytes : Word) : Word := (bytes+sizeof_Header-1#32) / sizeof_Header+1#32

def kmalloc_counted (fuel : Nat) (base : Word) (s : Heap) (bytes : Word) : Option (Nat × Word × Heap) :=
  if bytes = 0#32 then some (0,0#32,s)
  else
    let s := if s.freep = 0#32 then kheap_init base s else s
    kmalloc_loop base (request_units bytes) fuel s s.freep (s_next s.mem s.freep)

/-- The pointer that `kmalloc` returns, and the heap after it. -/
def kmalloc (fuel : Nat) (base : Word) (s : Heap) (bytes : Word) : Option (Word × Heap) :=
  (kmalloc_counted fuel base s bytes).map Prod.snd

/-- How often `kmalloc` calls `morecore`. -/
def kmalloc_calls (fuel : Nat) (base : Word) (s : Heap) (bytes : Word) : Option Nat :=
  (kmalloc_counted fuel base s bytes).map Prod.fst

/-! ### Headers -/

theorem header_add_toNat {h n : Word} (fits : h.toNat+8*n.toNat < 2^32) :
    (header_add h n).toNat = h.toNat+8*n.toNat := by
  rw [header_add,sizeof_Header,BitVec.toNat_add,BitVec.toNat_mul,BitVec.toNat_ofNat]
  omega

/-- The end of a block is the end of memory, which wraps around to null, or an address. -/
theorem header_add_eq_iff {h n a : Word} (fits : h.toNat+8*n.toNat ≤ 2^32) (nonzero : 0 < a.toNat) :
    header_add h n = a ↔ h.toNat+8*n.toNat = a.toNat := by
  have value : (header_add h n).toNat = (h.toNat+8*n.toNat) % 2^32 := by
    rw [header_add,sizeof_Header,BitVec.toNat_add,BitVec.toNat_mul,BitVec.toNat_ofNat]
    omega
  have bound := a.isLt
  constructor
  · rintro rfl
    omega
  · intro reaches
    apply BitVec.eq_of_toNat_eq
    rw [value]
    omega

/-- A pointer to the units of a block gives its header back. -/
theorem header_back (h : Word) : header_add h 1#32-sizeof_Header = h := by
  simp only [header_add,sizeof_Header]
  bv_omega

/-- Two memories have the same header at an address. -/
def SameHeader (m m' : Memory) (h : Word) : Prop := s_next m' h = s_next m h ∧ s_units m' h = s_units m h

theorem sameHeader_trans {m m' m'' : Memory} {h : Word} (first : SameHeader m m' h) (second : SameHeader m' m'' h) :
    SameHeader m m'' h := ⟨second.1.trans first.1,second.2.trans first.2⟩

section Headers
variable {m : Memory} {g h v : Word}

private theorem units_addr (fits : h.toNat+8 ≤ 2^32) : (h+4#32).toNat = h.toNat+4 := by
  rw [BitVec.toNat_add,BitVec.toNat_ofNat]
  omega

@[simp] theorem s_next_set_next (m : Memory) (h v : Word) : s_next (set_next m h v) h = v := read32_write32 m h v
@[simp] theorem s_units_set_units (m : Memory) (h v : Word) : s_units (set_units m h v) h = v := read32_write32 m _ v

theorem s_units_set_next (fits : h.toNat+8 ≤ 2^32) : s_units (set_next m h v) h = s_units m h := by
  have addr := units_addr fits
  exact read32_write32_apart (by omega) (by omega) (.inl (by omega))

theorem s_next_set_units (fits : h.toNat+8 ≤ 2^32) : s_next (set_units m h v) h = s_next m h := by
  have addr := units_addr fits
  exact read32_write32_apart (by omega) (by omega) (.inr (by omega))

variable (fitsG : g.toNat+8 ≤ 2^32) (fitsH : h.toNat+8 ≤ 2^32) (apart : g.toNat+8 ≤ h.toNat ∨ h.toNat+8 ≤ g.toNat)
include fitsG fitsH apart

theorem sameHeader_set_next : SameHeader m (set_next m g v) h := by
  have addr := units_addr fitsH
  exact ⟨read32_write32_apart (by omega) (by omega) (by omega),read32_write32_apart (by omega) (by omega) (by omega)⟩

theorem sameHeader_set_units : SameHeader m (set_units m g v) h := by
  have addr := units_addr fitsH
  have addr' := units_addr fitsG
  exact ⟨read32_write32_apart (by omega) (by omega) (by omega),read32_write32_apart (by omega) (by omega) (by omega)⟩

end Headers

/-! ### Linking a block in -/

section Joining
variable {m : Memory} {block curr h : Word} (fits : block.toNat+8 ≤ 2^32) (fitsCurr : curr.toNat+8 ≤ 2^32)
  (apart : block.toNat+8 ≤ curr.toNat ∨ curr.toNat+8 ≤ block.toNat)

/-- The first step writes the header of the block only. -/
theorem join_upper_other (fits : block.toNat+8 ≤ 2^32) (fitsH : h.toNat+8 ≤ 2^32)
    (other : block.toNat+8 ≤ h.toNat ∨ h.toNat+8 ≤ block.toNat) : SameHeader m (join_upper m block curr) h := by
  rw [join_upper]
  split
  · exact sameHeader_trans (sameHeader_set_units fits fitsH other) (sameHeader_set_next fits fitsH other)
  · exact sameHeader_set_next fits fitsH other

/-- The second step writes the header of the member at the place only. -/
theorem join_lower_other (fitsCurr : curr.toNat+8 ≤ 2^32) (fitsH : h.toNat+8 ≤ 2^32)
    (other : curr.toNat+8 ≤ h.toNat ∨ h.toNat+8 ≤ curr.toNat) : SameHeader m (join_lower m block curr) h := by
  rw [join_lower]
  split
  · exact sameHeader_trans (sameHeader_set_units fitsCurr fitsH other) (sameHeader_set_next fitsCurr fitsH other)
  · exact sameHeader_set_next fitsCurr fitsH other

include fits fitsCurr apart

theorem join_upper_joined (fitsNext : (s_next m curr).toNat+8 ≤ 2^32)
    (other : block.toNat+8 ≤ (s_next m curr).toNat ∨ (s_next m curr).toNat+8 ≤ block.toNat)
    (joined : header_add block (s_units m block) = s_next m curr) :
    s_next (join_upper m block curr) block = s_next m (s_next m curr) ∧
      s_units (join_upper m block curr) block = s_units m block+s_units m (s_next m curr) := by
  have atCurr (v : Word) : s_next (set_units m block v) curr = s_next m curr :=
    (sameHeader_set_units fits fitsCurr apart).1
  have atNext (v : Word) : s_next (set_units m block v) (s_next m curr) = s_next m (s_next m curr) :=
    (sameHeader_set_units fits fitsNext other).1
  simp only [join_upper,joined,if_true,atCurr,atNext]
  exact ⟨s_next_set_next _ _ _,by rw [s_units_set_next fits,s_units_set_units]⟩

omit fitsCurr apart in
theorem join_upper_apart (separate : header_add block (s_units m block) ≠ s_next m curr) :
    s_next (join_upper m block curr) block = s_next m curr ∧ s_units (join_upper m block curr) block = s_units m block := by
  simp only [join_upper,separate,if_false]
  exact ⟨s_next_set_next _ _ _,s_units_set_next fits⟩

theorem join_lower_joined (joined : header_add curr (s_units m curr) = block) :
    s_next (join_lower m block curr) curr = s_next m block ∧
      s_units (join_lower m block curr) curr = s_units m curr+s_units m block := by
  have atBlock (v : Word) : s_next (set_units m curr v) block = s_next m block :=
    (sameHeader_set_units fitsCurr fits apart.symm).1
  simp only [join_lower,joined,if_true,atBlock]
  exact ⟨s_next_set_next _ _ _,by rw [s_units_set_next fitsCurr,s_units_set_units]⟩

omit fits apart in
theorem join_lower_apart (separate : header_add curr (s_units m curr) ≠ block) :
    s_next (join_lower m block curr) curr = block ∧ s_units (join_lower m block curr) curr = s_units m curr := by
  simp only [join_lower,separate,if_false]
  exact ⟨s_next_set_next _ _ _,s_units_set_next fitsCurr⟩

end Joining

/-! ### Freeing a block -/

/-- The heap's list in memory has the shape of a free list. -/
abbrev Heaped (m : Memory) (base : Word) (F B : Finset Word) (P : Nat → Prop) : Prop :=
  Shape (s_next m) (s_units m) base F B P

/-- The state between the two steps of joining: the block may have taken in the
    member above it, and the list still has to be linked to the block. -/
structure Joined (m m' : Memory) (base x c : Word) (F B : Finset Word) (P : Nat → Prop) (F' : Finset Word)
    (nxt size : Word → Word) : Prop where
  shape : Shape nxt size base F' B P
  place : c ∈ F'
  fewer : F' ⊆ F
  before : gap c x < gap c (nxt c)
  notUpper : x.toNat+8*(size x).toNat ≠ (nxt c).toNat
  grown : (s_units m x).toNat ≤ (size x).toNat
  after : s_next m' x = nxt c
  links : ∀ a ∈ F', a ≠ c → s_next m' a = nxt a
  sizes : ∀ a ∈ F' ∪ B, s_units m' a = size a
  others : ∀ a ∈ B, a ≠ x → size a = s_units m a

section Freeing
variable {m : Memory} {base x c : Word} {F B : Finset Word} {P : Nat → Prop}

theorem join_upper_joins (shape : Heaped m base F B P) (live : x ∈ B) (place : c ∈ F)
    (before : gap c x < gap c (s_next m c)) :
    ∃ F' nxt size, Joined m (join_upper m x c) base x c F B P F' nxt size := by
  have member : s_next m c ∈ F := (shape.ring c place).1
  have notFree := live_notFree shape live
  have differ : ∀ {a}, a ∈ F → x ≠ a := fun free same => notFree (same ▸ free)
  have inFree : ∀ {a}, a ∈ F → a ∈ F ∪ B := fun free => Finset.mem_union_left B free
  have liveIn : x ∈ F ∪ B := Finset.mem_union_right F live
  have fits : ∀ {a}, a ∈ F ∪ B → a.toNat+8 ≤ 2^32 := fun inside => (header_fits shape inside).2
  have apart : ∀ {a}, a ∈ F ∪ B → x ≠ a → x.toNat+8 ≤ a.toNat ∨ a.toNat+8 ≤ x.toNat :=
    fun inside => headers_apart shape liveIn inside
  have others : ∀ {a}, a ∈ F ∪ B → a ≠ x → SameHeader m (join_upper m x c) a := fun inside other =>
    join_upper_other (fits liveIn) (fits inside) (apart inside other.symm)
  have block : x ∈ blocks base F B := mem_blocks.mpr (.inr live)
  have ends := block_end shape.parts block
  have reaches : header_add x (s_units m x) = s_next m c ↔
      x.toNat+8*(s_units m x).toNat = (s_next m c).toNat := by
    exact header_add_eq_iff ends (header_fits shape (inFree member)).1
  by_cases joined : header_add x (s_units m x) = s_next m c
  · have follows := reaches.mp joined
    have notBase : s_next m c ≠ base := by
      intro isBase
      have positive := (shape.parts.unit x block).2
      rw [isBase] at follows
      have := shape.clear _ (shape.parts.inside x block (base.toNat-1) ⟨by omega,by omega⟩)
      omega
    obtain ⟨nextX,unitsX⟩ := join_upper_joined (fits liveIn) (fits (inFree place)) (apart (inFree place) (differ place))
      (fits (inFree member)) (apart (inFree member) (differ member)) joined
    have total : (s_units m x+s_units m (s_next m c)).toNat = (s_units m x).toNat+(s_units m (s_next m c)).toNat := by
      have upper := block_end shape.parts (mem_blocks.mpr (.inl ⟨notBase,member⟩))
      rw [BitVec.toNat_add,Nat.mod_eq_of_lt (by omega)]
    have own := next_ne shape member notBase
    have afterNext := shape.ring _ member
    refine ⟨_,_,_,shape_absorb_upper shape live place rfl notBase follows,?_,Finset.erase_subset _ _,?_,?_,?_,?_,?_,?_,?_⟩
    · refine Finset.mem_erase.mpr ⟨fun same => ?_,place⟩
      exact next_ne shape place (same ▸ notBase) same.symm
    · rw [Function.update_self]
      exact lt_of_lt_of_le before ((shape.ring c place).2 _ afterNext.1)
    · rw [Function.update_self,Function.update_self,total]
      have := shape.coalesced _ member _ afterNext.1 own.symm
      omega
    · rw [Function.update_self,total]
      omega
    · rw [Function.update_self,nextX]
    · intro a inside other
      have old := Finset.mem_of_mem_erase inside
      rw [Function.update_of_ne other,(others (inFree old) (differ old).symm).1]
    · intro a inside
      have old : a ∈ F ∪ B := Finset.union_subset_union_left (Finset.erase_subset _ _) inside
      by_cases here : a = x
      · subst here
        rw [Function.update_self,unitsX]
      · rw [Function.update_of_ne here,(others old here).2]
    · intro a _ other
      rw [Function.update_of_ne other]
  · obtain ⟨nextX,unitsX⟩ := join_upper_apart (fits liveIn) joined
    refine ⟨F,_,_,shape,place,Finset.Subset.refl F,before,fun follows => joined (reaches.mpr follows),le_refl _,nextX,
      ?_,?_,fun a _ _ => rfl⟩
    · intro a inside _
      exact (others (inFree inside) (differ inside).symm).1
    · intro a inside
      by_cases here : a = x
      · subst here
        exact unitsX
      · exact (others inside here).2

/-- Linking the block in, or adding it to the member below it, restores the list. -/
theorem join_lower_shape {m' : Memory} {F' : Finset Word} {nxt size : Word → Word}
    (half : Joined m m' base x c F B P F' nxt size) (live : x ∈ B) :
    ∃ F'', Heaped (join_lower m' x c) base F'' (B.erase x) P ∧ c ∈ F'' ∧
      (∃ a ∈ F'', (s_units m x).toNat ≤ (s_units (join_lower m' x c) a).toNat) ∧
      ∀ a ∈ B.erase x, s_units (join_lower m' x c) a = s_units m a := by
  have shape := half.shape
  have place := half.place
  have notFree := live_notFree shape live
  have inFree : ∀ {a}, a ∈ F' → a ∈ F' ∪ B := fun free => Finset.mem_union_left B free
  have liveIn : x ∈ F' ∪ B := Finset.mem_union_right F' live
  have fits : ∀ {a}, a ∈ F' ∪ B → a.toNat+8 ≤ 2^32 := fun inside => (header_fits shape inside).2
  have differ : x ≠ c := fun same => notFree (same ▸ place)
  have apart := headers_apart shape liveIn (inFree place) differ
  have others : ∀ {a}, a ∈ F' ∪ B → a ≠ c → SameHeader m' (join_lower m' x c) a := fun inside other =>
    join_lower_other (fits (inFree place)) (fits inside) (headers_apart shape (inFree place) inside other.symm)
  have rest : ∀ {a}, a ∈ B.erase x → a ∈ F' ∪ B ∧ a ≠ c ∧ size a = s_units m a := by
    intro a inside
    obtain ⟨notX,old⟩ := Finset.mem_erase.mp inside
    refine ⟨Finset.mem_union_right F' old,?_,half.others a old notX⟩
    rintro rfl
    exact shape.notLive a place old
  have small : c.toNat+8*(size c).toNat ≤ 2^32 := by
    by_cases isBase : c = base
    · rw [isBase,shape.empty]
      simpa using base.isLt.le
    · exact block_end shape.parts (mem_blocks.mpr (.inl ⟨isBase,place⟩))
  have unitsC : s_units m' c = size c := half.sizes c (inFree place)
  have reaches : header_add c (s_units m' c) = x ↔ c.toNat+8*(size c).toNat = x.toNat := by
    rw [unitsC]
    exact header_add_eq_iff small (header_fits shape liveIn).1
  by_cases joined : header_add c (s_units m' c) = x
  · obtain ⟨nextC,sizeC⟩ := join_lower_joined (fits liveIn) (fits (inFree place)) apart joined
    have total : (size c+size x).toNat = (size c).toNat+(size x).toNat := by
      have := block_end shape.parts (mem_blocks.mpr (.inr live))
      have := reaches.mp joined
      rw [BitVec.toNat_add,Nat.mod_eq_of_lt (by omega)]
    have newC : s_units (join_lower m' x c) c = size c+size x := by rw [sizeC,unitsC,half.sizes x liveIn]
    refine ⟨F',shape_congr (shape_absorb_lower shape live place half.before half.notUpper (reaches.mp joined)) ?_ ?_,
      place,⟨c,place,?_⟩,?_⟩
    · intro a inside
      by_cases here : a = c
      · subst here
        rw [nextC,half.after]
      · rw [(others (inFree inside) here).1,half.links a inside here]
    · intro a inside
      by_cases here : a = c
      · subst here
        rw [Function.update_self,newC]
      · have old : a ∈ F' ∪ B := Finset.union_subset_union_right (Finset.erase_subset _ _) inside
        rw [Function.update_of_ne here,(others old here).2,half.sizes a old]
    · have := half.grown
      rw [newC,total]
      omega
    · intro a inside
      obtain ⟨old,notC,same⟩ := rest inside
      rw [(others old notC).2,half.sizes a old,same]
  · obtain ⟨nextC,sizeC⟩ := join_lower_apart (fits (inFree place)) joined
    have sameX := others liveIn differ
    refine ⟨insert x F',shape_congr (shape_insert shape live place half.before half.notUpper
      (fun follows => joined (reaches.mpr follows))) ?_ ?_,Finset.mem_insert_of_mem place,
      ⟨x,Finset.mem_insert_self x F',?_⟩,?_⟩
    · intro a inside
      by_cases here : a = c
      · subst here
        rw [Function.update_self,nextC]
      · rw [Function.update_of_ne here]
        rcases Finset.mem_insert.mp inside with rfl | old
        · rw [Function.update_self,sameX.1,half.after]
        · have notX : a ≠ x := by
            rintro rfl
            exact notFree old
          rw [Function.update_of_ne notX,(others (inFree old) here).1,half.links a old here]
    · intro a inside
      have old : a ∈ F' ∪ B := by
        rcases Finset.mem_union.mp inside with free | stays
        · rcases Finset.mem_insert.mp free with rfl | old
          · exact liveIn
          · exact inFree old
        · exact Finset.mem_union_right F' (Finset.mem_of_mem_erase stays)
      by_cases here : a = c
      · subst here
        rw [sizeC,unitsC]
      · rw [(others old here).2,half.sizes a old]
    · rw [sameX.2,half.sizes x liveIn]
      exact half.grown
    · intro a inside
      obtain ⟨old,notC,same⟩ := rest inside
      rw [(others old notC).2,half.sizes a old,same]

/-- The search ends only at a member behind which the block belongs. -/
theorem find_place_place (shape : Heaped m base F B P) (outside : x ∉ F) {fuel : Nat} {curr : Word} (start : curr ∈ F)
    (found : find_place m x fuel curr = some c) : c ∈ F ∧ gap c x < gap c (s_next m c) := by
  induction fuel generalizing curr with
  | zero => cases found
  | succ fuel ih =>
    have next := (shape.ring curr start).1
    have between := between_iff (a := curr) (n := s_next m curr) (x := x) (fun same => outside (same ▸ start))
      (fun same => outside (same ▸ next))
    rw [find_place] at found
    split_ifs at found with inside wraps
    · cases found
      exact ⟨start,between.mp (.inl inside)⟩
    · cases found
      exact ⟨start,between.mp (.inr wraps)⟩
    · exact ih next found

/-- Every round of the search comes nearer to the block. -/
theorem find_place_ends (shape : Heaped m base F B P) (outside : x ∉ F) {fuel : Nat} {curr : Word} (start : curr ∈ F)
    (enough : gap curr x < fuel) : ∃ c, find_place m x fuel curr = some c := by
  induction fuel generalizing curr with
  | zero => omega
  | succ fuel ih =>
    have next := (shape.ring curr start).1
    have notNext : x ≠ s_next m curr := fun same => outside (same ▸ next)
    have between := between_iff (a := curr) (n := s_next m curr) (x := x) (fun same => outside (same ▸ start)) notNext
    rw [find_place]
    split_ifs with inside wraps
    · exact ⟨curr,rfl⟩
    · exact ⟨curr,rfl⟩
    · have beyond : gap curr (s_next m curr) < gap curr x := by
        have notBefore : ¬ gap curr x < gap curr (s_next m curr) := fun before =>
          (between.mpr before).elim inside wraps
        exact lt_of_le_of_ne (Nat.not_lt.mp notBefore) (fun same => notNext (gap_inj same).symm)
      have := gap_add beyond
      exact ih next (by omega)

end Freeing

/-- What a call leaves alone when it only rearranges the list. -/
structure Rearranged (s s' : Heap) : Prop where
  frames : s'.frames = s.frames
  cores : s'.cores = s.cores

section Calls
variable {base : Word} {s s' : Heap} {F B : Finset Word} {P : Nat → Prop} {x : Word}

theorem freep_nonzero (shape : Heaped s.mem base F B P) (head : s.freep ∈ F) : s.freep ≠ 0#32 := by
  intro zero
  have := (header_fits shape (Finset.mem_union_left B head)).1
  rw [zero] at this
  simp at this

/-- The pointer behind a header is null only at the end of memory. -/
theorem pointer_nonzero (below : x.toNat+8 < 2^32) : header_add x 1#32 ≠ 0#32 := by
  intro zero
  have value : (header_add x 1#32).toNat = x.toNat+8*1 := header_add_toNat (by simpa using below)
  rw [zero] at value
  simp at value

theorem kfree_internal_eq (shape : Heaped s.mem base F B P) (head : s.freep ∈ F) (below : x.toNat+8 < 2^32)
    (fuel : Nat) :
    kfree_internal fuel base s (header_add x 1#32) = (find_place s.mem x fuel s.freep).map fun curr =>
      { s with mem := join_lower (join_upper s.mem x curr) x curr, freep := curr } := by
  simp only [kfree_internal,if_neg (pointer_nonzero below),if_neg (freep_nonzero shape head),header_back]

/-- Freeing a live block moves its units into the free list. -/
theorem kfree_internal_shape (shape : Heaped s.mem base F B P) (head : s.freep ∈ F) (live : x ∈ B)
    (below : x.toNat+8 < 2^32) {fuel : Nat}
    (returns : kfree_internal fuel base s (header_add x 1#32) = some s') :
    ∃ F', Heaped s'.mem base F' (B.erase x) P ∧ s'.freep ∈ F' ∧ Rearranged s s' ∧
      (∃ a ∈ F', (s_units s.mem x).toNat ≤ (s_units s'.mem a).toNat) ∧
      ∀ a ∈ B.erase x, s_units s'.mem a = s_units s.mem a := by
  rw [kfree_internal_eq shape head below] at returns
  obtain ⟨curr,found,rfl⟩ := Option.map_eq_some_iff.mp returns
  obtain ⟨place,before⟩ := find_place_place shape (live_notFree shape live) head found
  obtain ⟨F₁,nxt,size,half⟩ := join_upper_joins shape live place before
  obtain ⟨F₂,final,member,large,others⟩ := join_lower_shape half live
  exact ⟨F₂,final,member,⟨rfl,rfl⟩,large,others⟩

theorem kfree_internal_returns (shape : Heaped s.mem base F B P) (head : s.freep ∈ F) (live : x ∈ B)
    (below : x.toNat+8 < 2^32) {fuel : Nat} (enough : 2^32 ≤ fuel) :
    ∃ s', kfree_internal fuel base s (header_add x 1#32) = some s' := by
  obtain ⟨curr,found⟩ := find_place_ends shape (live_notFree shape live) head (lt_of_lt_of_le (gap_lt _ _) enough)
  rw [kfree_internal_eq shape head below,found]
  exact ⟨_,rfl⟩

end Calls

end SoKernel.Kheap
