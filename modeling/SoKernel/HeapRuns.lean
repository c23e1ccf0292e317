import SoKernel.Kmalloc

/-!
The kernel heap over whole runs. Clients call `kmalloc` and `kfree` and write into
their blocks, while the rest of the kernel uses the frame allocator and writes to
memory that does not belong to the heap. In every state of every such run the free
list is a ring in address order with no two blocks left to join, and the free and
the live blocks divide the pages that `morecore` has obtained.
-/
namespace SoKernel.HeapRuns
open SoKernel.Words SoKernel.Pages SoKernel.Pfa SoKernel.PfaInit SoKernel.FrameOwnership SoKernel.Ring SoKernel.FreeList
  SoKernel.Kheap SoKernel.Kmalloc
set_option linter.unusedSimpArgs false

/-- A block that a client has: the pointer `kmalloc` returned, and the units of
    the block when it did. -/
structure LiveBlock where
  ptr : Word
  units : Word
deriving DecidableEq

/-- Where the header of a block is. -/
def LiveBlock.header (b : LiveBlock) : Word := b.ptr-sizeof_Header
/-- The bytes that the client may write. -/
def LiveBlock.Payload (b : LiveBlock) (a : Word) : Prop :=
  b.ptr.toNat ≤ a.toNat ∧ a.toNat < b.ptr.toNat+8*(b.units.toNat-1)

/-- The heap, the frames of the allocator's other clients, and the live blocks. -/
structure World where
  heap : Heap
  own : Nat → Prop
  live : List LiveBlock

/-- The world after `kmalloc` has returned. -/
def World.grant (w : World) (p : Word) (h : Heap) : World :=
  { w with
    heap := h
    live := if p = 0#32 then w.live else ⟨p,s_units h.mem (p-sizeof_Header)⟩ :: w.live }

def World.frames (w : World) (frames : Frames) (own : Nat → Prop) : World :=
  { w with heap := { w.heap with frames := frames }, own := own }

def World.mem (w : World) (m : Memory) : World := { w with heap := { w.heap with mem := m } }

/-- One step of a client of the heap or of another part of the kernel. -/
inductive Step (base : Word) : World → World → Prop
  | kmalloc (w : World) (fuel : Nat) (bytes p : Word) (h : Heap) (returns : kmalloc fuel base w.heap bytes = some (p,h)) :
      Step base w (w.grant p h)
  | kfree (w : World) (fuel : Nat) (b : LiveBlock) (isLive : b ∈ w.live) (h : Heap)
      (returns : kfree fuel base w.heap b.ptr = some h) : Step base w { w with heap := h, live := w.live.erase b }
  | payload (w : World) (b : LiveBlock) (isLive : b ∈ w.live) (m : Memory)
      (only : ∀ a, ¬ b.Payload a → m a = w.heap.mem a) : Step base w (w.mem m)
  | elsewhere (w : World) (m : Memory)
      (sentinel : ∀ a : Word, base.toNat ≤ a.toNat → a.toNat < base.toNat+8 → m a = w.heap.mem a)
      (pages : ∀ a : Word, Held w.heap.cores (pageOf a) → m a = w.heap.mem a) : Step base w (w.mem m)
  | alloc (w : World) : Step base w (w.frames (pfa_alloc w.heap.frames).2
      (fun f => w.own f ∨ ((pfa_alloc w.heap.frames).1 ≠ 0#32 ∧ f = pageOf (pfa_alloc w.heap.frames).1)))
  | allocContiguous (w : World) (n : Word) : Step base w (w.frames (pfa_alloc_contiguous w.heap.frames n).2
      (fun f => w.own f ∨ ((pfa_alloc_contiguous w.heap.frames n).1 ≠ 0#32 ∧
        (Allocation.mk (pfa_alloc_contiguous w.heap.frames n).1 n).Holds f)))
  | reserve (w : World) (a b : Word) : Step base w (w.frames (pfa_reserve w.heap.frames a b) w.own)
  | free (w : World) (a : Word) (owned : w.own (pageOf a)) :
      Step base w (w.frames (pfa_free w.heap.frames a) (fun f => w.own f ∧ f ≠ pageOf a))
  | freeContiguous (w : World) (a n : Word) (owned : ∀ f, (Allocation.mk a n).Holds f → w.own f) :
      Step base w (w.frames (pfa_free_contiguous w.heap.frames a n) (fun f => w.own f ∧ ¬ (Allocation.mk a n).Holds f))

/-! ### The invariant -/

def headers (live : List LiveBlock) : Finset Word := (live.map LiveBlock.header).toFinset

theorem mem_headers {live : List LiveBlock} {a : Word} : a ∈ headers live ↔ ∃ b ∈ live, b.header = a := by
  simp [headers]

/-- The frames that nobody can get after `pfa_init`: those that the heap must never
    get, and the last one. -/
def Barred (base : Word) (f : Nat) : Prop := f = 0xFFFFF ∨ Guarded base f
/-- The frames that the heap does not get. -/
def Busy (base : Word) (own : Nat → Prop) (f : Nat) : Prop := own f ∨ Barred base f

structure Invariant (base : Word) (w : World) (F : Finset Word) : Prop where
  sound : Sound base (Busy base w.own) w.heap F (headers w.live)
  distinct : (w.live.map LiveBlock.header).Nodup
  units : ∀ b ∈ w.live, s_units w.heap.mem b.header = b.units
  ownFree : ∀ f, w.own f → f < MAX_FRAMES ∧ ¬ Barred base f

/-- Without the last frame no live block is the last unit of memory. -/
theorem live_below {base : Word} {busy : Nat → Prop} {s : Heap} {F B : Finset Word} (sound : Sound base busy s F B)
    (last : busy 0xFFFFF) {x : Word} (live : x ∈ B) : x.toNat+8 < 2^32 := by
  have block : x ∈ blocks base F B := mem_blocks.mpr (.inr live)
  have positive := (sound.shape.parts.unit x block).2
  have ends := block_end sound.shape.parts block
  have held : Held s.cores (x.toNat/4096) := sound.shape.parts.inside x block _ (covers_start sound.shape.parts block)
  by_contra top
  rw [show x.toNat/4096 = 0xFFFFF by omega] at held
  exact (sound.busyUsed _ last).2 held

theorem header_ptr (b : LiveBlock) : header_add b.header 1#32 = b.ptr := by
  simp only [header_add,LiveBlock.header,sizeof_Header]
  bv_omega

/-- The header of a block depends on its eight bytes only. -/
theorem sameHeader_of_bytes {m m' : Memory} {h : Word} (fits : h.toNat+8 ≤ 2^32)
    (same : ∀ a : Word, h.toNat ≤ a.toNat → a.toNat < h.toNat+8 → m' a = m a) : SameHeader m m' h := by
  have upper : (h+4#32).toNat = h.toNat+4 := by
    rw [BitVec.toNat_add,BitVec.toNat_ofNat]
    omega
  constructor
  · refine read32_congr (fun a inside => same a ?_ ?_)
    · exact ((inWord_range (by omega)).mp inside).1
    · have := ((inWord_range (by omega)).mp inside).2
      omega
  · refine read32_congr (fun a inside => same a ?_ ?_)
    · have := ((inWord_range (by omega)).mp inside).1
      omega
    · have := ((inWord_range (by omega)).mp inside).2
      omega

section Steps
variable {base : Word} {w : World} {F : Finset Word}

/-- Writes that leave the headers alone. -/
theorem invariant_mem (inv : Invariant base w F) {m : Memory}
    (same : ∀ h ∈ F ∪ headers w.live, ∀ a : Word, h.toNat ≤ a.toNat → a.toNat < h.toNat+8 → m a = w.heap.mem a) :
    Invariant base (w.mem m) F := by
  have shape := inv.sound.shape
  have header : ∀ h ∈ F ∪ headers w.live, SameHeader w.heap.mem m h := fun h inside =>
    sameHeader_of_bytes (header_fits shape inside).2 (same h inside)
  constructor
  case sound =>
    refine ⟨shape_congr shape ?_ ?_,inv.sound.head,inv.sound.coreUsed,inv.sound.busyUsed,inv.sound.guarded⟩
    · exact fun a inside => (header a (Finset.mem_union_left _ inside)).1
    · exact fun a inside => (header a inside).2
  case distinct => exact inv.distinct
  case units =>
    intro b isLive
    have inside : b.header ∈ F ∪ headers w.live := Finset.mem_union_right F (mem_headers.mpr ⟨b,isLive,rfl⟩)
    exact (header _ inside).2.trans (inv.units b isLive)
  case ownFree => exact inv.ownFree

/-- A change of the allocator that frees neither a frame of the heap nor one that
    nobody can get. -/
theorem invariant_frames (inv : Invariant base w F) {frames : Frames} {own : Nat → Prop}
    (keeps : ∀ f, Held w.heap.cores f ∨ Barred base f → is_used w.heap.frames f = true → is_used frames f = true)
    (owned : ∀ f, own f → is_used frames f = true ∧ ¬ Held w.heap.cores f ∧ f < MAX_FRAMES ∧ ¬ Barred base f) :
    Invariant base (w.frames frames own) F := by
  constructor
  case sound =>
    refine ⟨inv.sound.shape,inv.sound.head,?_,?_,fun f guard => .inr (.inr guard)⟩
    · exact fun f held => keeps f (.inl held) (inv.sound.coreUsed f held)
    · rintro f (isOwn | guard)
      · exact ⟨(owned f isOwn).1,(owned f isOwn).2.1⟩
      · obtain ⟨used,notHeld⟩ := inv.sound.busyUsed f (.inr guard)
        exact ⟨keeps f (.inr guard) used,notHeld⟩
  case distinct => exact inv.distinct
  case units => exact inv.units
  case ownFree => exact fun f isOwn => (owned f isOwn).2.2

/-- What another client owns already. -/
theorem owned_before (inv : Invariant base w F) {f : Nat} (isOwn : w.own f) :
    is_used w.heap.frames f = true ∧ ¬ Held w.heap.cores f ∧ f < MAX_FRAMES ∧ ¬ Barred base f := by
  obtain ⟨used,notHeld⟩ := inv.sound.busyUsed f (.inl isOwn)
  exact ⟨used,notHeld,inv.ownFree f isOwn⟩

/-- A free frame is neither the heap's nor one that nobody can get. -/
theorem free_before (inv : Invariant base w F) {f : Nat} (free : is_used w.heap.frames f = false) :
    ¬ Held w.heap.cores f ∧ ¬ Barred base f := by
  constructor
  · intro held
    have used := inv.sound.coreUsed f held
    rw [free] at used
    cases used
  · intro guard
    have used := (inv.sound.busyUsed f (.inr guard)).1
    rw [free] at used
    cases used

theorem headers_erase {live : List LiveBlock} (distinct : (live.map LiveBlock.header).Nodup) {b : LiveBlock}
    (isLive : b ∈ live) : headers (live.erase b) = (headers live).erase b.header := by
  have split : live.Perm (b :: live.erase b) := List.perm_cons_erase isLive
  have rest : (b.header :: (live.erase b).map LiveBlock.header).Nodup :=
    (split.map LiveBlock.header).nodup_iff.mp distinct
  have gone := (List.nodup_cons.mp rest).1
  ext a
  rw [Finset.mem_erase,mem_headers,mem_headers]
  constructor
  · rintro ⟨c,inside,rfl⟩
    exact ⟨fun same => gone (same ▸ List.mem_map_of_mem inside),c,List.mem_of_mem_erase inside,rfl⟩
  · rintro ⟨other,c,inside,rfl⟩
    have differ : c ≠ b := by
      rintro rfl
      exact other rfl
    exact ⟨c,(List.mem_erase_of_ne differ).mpr inside,rfl⟩

theorem kmalloc_invariant (inv : Invariant base w F) {fuel : Nat} {bytes p : Word} {h : Heap}
    (returns : kmalloc fuel base w.heap bytes = some (p,h)) : ∃ F', Invariant base (w.grant p h) F' := by
  obtain ⟨result,keeps⟩ := kmalloc_granted inv.sound returns
  have units : ∀ b ∈ w.live, s_units h.mem b.header = b.units := fun b isLive =>
    (keeps _ (mem_headers.mpr ⟨b,isLive,rfl⟩)).trans (inv.units b isLive)
  rcases result with ⟨rfl,F',sound⟩ | ⟨x,F',rfl,fresh,_,sound⟩
  · refine ⟨F',?_,?_,?_,inv.ownFree⟩
    · simpa [World.grant] using sound
    · simpa [World.grant] using inv.distinct
    · simpa [World.grant] using units
  · have nonzero := pointer_nonzero (live_below sound (.inr (.inl rfl)) (Finset.mem_insert_self x _))
    have header : LiveBlock.header ⟨header_add x 1#32,s_units h.mem (header_add x 1#32-sizeof_Header)⟩ = x := header_back x
    have more : headers (⟨header_add x 1#32,s_units h.mem (header_add x 1#32-sizeof_Header)⟩ :: w.live) =
        insert x (headers w.live) := by
      simp [headers,header]
    refine ⟨F',?_,?_,?_,inv.ownFree⟩
    · simp only [World.grant,if_neg nonzero,more]
      exact sound
    · simp only [World.grant,if_neg nonzero,List.map_cons,header,List.nodup_cons]
      exact ⟨fun old => fresh (by simpa [headers] using old),inv.distinct⟩
    · simp only [World.grant,if_neg nonzero]
      intro b isLive
      rcases List.mem_cons.mp isLive with rfl | old
      · rfl
      · exact units b old

theorem kfree_invariant (inv : Invariant base w F) {fuel : Nat} {b : LiveBlock} (isLive : b ∈ w.live) {h : Heap}
    (returns : kfree fuel base w.heap b.ptr = some h) :
    ∃ F', Invariant base { w with heap := h, live := w.live.erase b } F' := by
  rw [kfree,← header_ptr b] at returns
  have inside : b.header ∈ headers w.live := mem_headers.mpr ⟨b,isLive,rfl⟩
  have below := live_below inv.sound (.inr (.inl rfl)) inside
  obtain ⟨F',shape,head,kept,_,others⟩ := kfree_internal_shape inv.sound.shape inv.sound.head inside below returns
  rw [← headers_erase inv.distinct isLive] at shape others
  refine ⟨F',⟨?_,head,?_,?_,inv.sound.guarded⟩,?_,?_,inv.ownFree⟩
  · exact kept.cores ▸ shape
  · simp only [kept.cores,kept.frames]
    exact inv.sound.coreUsed
  · simp only [kept.cores,kept.frames]
    exact inv.sound.busyUsed
  · exact inv.distinct.sublist (List.Sublist.map _ List.erase_sublist)
  · intro c stays
    rw [others _ (mem_headers.mpr ⟨c,stays,rfl⟩)]
    exact inv.units c (List.mem_of_mem_erase stays)

/-- A client's payload contains no header. -/
theorem payload_invariant (inv : Invariant base w F) {b : LiveBlock} (isLive : b ∈ w.live) {m : Memory}
    (only : ∀ a, ¬ b.Payload a → m a = w.heap.mem a) : Invariant base (w.mem m) F := by
  have shape := inv.sound.shape
  have inside : b.header ∈ headers w.live := mem_headers.mpr ⟨b,isLive,rfl⟩
  have block : b.header ∈ blocks base F (headers w.live) := mem_blocks.mpr (.inr inside)
  have positive := (shape.parts.unit _ block).2
  have below := live_below inv.sound (.inr (.inl rfl)) inside
  have units := inv.units b isLive
  have ptr : b.ptr.toNat = b.header.toNat+8 := by
    rw [← header_ptr b,header_add_toNat (by simpa using below)]
    simp
  refine invariant_mem inv (fun h member a low high => only a (fun payload => ?_))
  obtain ⟨first,last⟩ := payload
  rw [ptr] at first last
  have covers : Covers (s_units w.heap.mem) b.header a.toNat := by
    refine ⟨by omega,?_⟩
    rw [units]
    omega
  by_cases same : h = b.header
  · rw [same] at high
    omega
  · -- A header elsewhere would start inside the block, or the block inside the header.
    by_cases isBase : h = base
    · have := shape.clear _ (shape.parts.inside _ block _ covers)
      rw [isBase] at low high
      omega
    · have other : h ∈ blocks base F (headers w.live) :=
        mem_blocks.mpr ((Finset.mem_union.mp member).imp (fun free => ⟨isBase,free⟩) id)
      have otherPositive := (shape.parts.unit h other).2
      exact same (shape.parts.apart h other _ block a.toNat ⟨low,by omega⟩ covers)

theorem elsewhere_invariant (inv : Invariant base w F) {m : Memory}
    (sentinel : ∀ a : Word, base.toNat ≤ a.toNat → a.toNat < base.toNat+8 → m a = w.heap.mem a)
    (pages : ∀ a : Word, Held w.heap.cores (pageOf a) → m a = w.heap.mem a) : Invariant base (w.mem m) F := by
  have shape := inv.sound.shape
  refine invariant_mem inv ?_
  intro h member a low high
  by_cases isBase : h = base
  · subst isBase
    exact sentinel a low high
  · have block : h ∈ blocks base F (headers w.live) :=
      mem_blocks.mpr ((Finset.mem_union.mp member).imp (fun free => ⟨isBase,free⟩) id)
    have positive := (shape.parts.unit h block).2
    exact pages a (shape.parts.inside h block a.toNat ⟨low,by omega⟩)

/-- Other clients take frames, all of which were free. -/
theorem taken_invariant (inv : Invariant base w F) {frames : Frames} {own : Nat → Prop}
    (keeps : ∀ f, is_used w.heap.frames f = true → is_used frames f = true)
    (owned : ∀ f, own f → w.own f ∨ (is_used w.heap.frames f = false ∧ f < MAX_FRAMES ∧ is_used frames f = true)) :
    Invariant base (w.frames frames own) F := by
  refine invariant_frames inv (fun f _ used => keeps f used) (fun f isOwn => ?_)
  rcases owned f isOwn with old | ⟨free,inside,used⟩
  · obtain ⟨used,rest⟩ := owned_before inv old
    exact ⟨keeps f used,rest⟩
  · obtain ⟨notHeld,notGuarded⟩ := free_before inv free
    exact ⟨used,notHeld,inside,notGuarded⟩

/-- Another client gives frames back that it owns. -/
theorem returned_invariant (inv : Invariant base w F) {frames : Frames} {given : Nat → Prop} (owned : ∀ f, given f → w.own f)
    (keeps : ∀ f, ¬ given f → is_used w.heap.frames f = true → is_used frames f = true) :
    Invariant base (w.frames frames (fun f => w.own f ∧ ¬ given f)) F := by
  refine invariant_frames inv (fun f safe used => keeps f (fun isGiven => ?_) used) (fun f isOwn => ?_)
  · have before := owned_before inv (owned f isGiven)
    exact safe.elim before.2.1 before.2.2.2
  · obtain ⟨used,rest⟩ := owned_before inv isOwn.1
    exact ⟨keeps f isOwn.2 used,rest⟩

theorem step_invariant {w' : World} (inv : Invariant base w F) (step : Step base w w') :
    ∃ F', Invariant base w' F' := by
  cases step with
  | kmalloc fuel bytes p h returns => exact kmalloc_invariant inv returns
  | kfree fuel b isLive h returns => exact kfree_invariant inv isLive returns
  | payload b isLive m only => exact ⟨F,payload_invariant inv isLive only⟩
  | elsewhere m sentinel pages => exact ⟨F,elsewhere_invariant inv sentinel pages⟩
  | alloc =>
    refine ⟨F,?_⟩
    rcases pfa_alloc_cases w.heap.frames with ⟨failed,_⟩ | ⟨g,inside,free,_,found⟩
    · rw [failed]
      exact taken_invariant inv (fun _ used => used) (fun f isOwn => .inl (isOwn.resolve_right (fun new => new.1 rfl)))
    · rw [found]
      refine taken_invariant inv (fun f used => by simp [used]) (fun f isOwn => isOwn.imp_right ?_)
      rintro ⟨_,rfl⟩
      rw [pageOf_pageAddr (by simpa [MAX_FRAMES] using inside)]
      exact ⟨free,inside,by simp⟩
  | allocContiguous n =>
    refine ⟨F,?_⟩
    rcases pfa_alloc_contiguous_cases w.heap.frames n with ⟨failed,_⟩ | ⟨r,_,fits,free,_,found⟩
    · rw [failed]
      exact taken_invariant inv (fun _ used => used) (fun f isOwn => .inl (isOwn.resolve_right (fun new => new.1 rfl)))
    · rw [found]
      refine taken_invariant inv (fun f used => by simp [is_used_mark_run,used]) (fun f isOwn => isOwn.imp_right ?_)
      rintro ⟨_,holds⟩
      have inRun : r ≤ f ∧ f < r+n.toNat := by
        simp only [Allocation.Holds] at holds
        rw [pageAddr_toNat (by simp only [MAX_FRAMES] at fits; omega),Nat.mul_div_cancel _ (by decide)] at holds
        exact holds
      exact ⟨free f inRun.1 inRun.2,by omega,by simp [is_used_mark_run,inRun]⟩
  | reserve a b => exact ⟨F,taken_invariant inv (fun f used => by simp [pfa_reserve,used]) (fun _ isOwn => .inl isOwn)⟩
  | free a owned =>
    refine ⟨F,returned_invariant inv (fun f isA => by rw [show f = pageOf a from isA]; exact owned) ?_⟩
    intro f other used
    have differ : f ≠ a.toNat/4096 := other
    simp [used,differ]
  | freeContiguous a n owned =>
    have fits : a.toNat/4096+n.toNat ≤ MAX_FRAMES := by
      by_cases zero : n.toNat = 0
      · have := a.isLt
        simp only [MAX_FRAMES]
        omega
      · have last := (owned_before inv (owned (a.toNat/4096+n.toNat-1) ⟨by simp; omega,by simp; omega⟩)).2.2.1
        omega
    refine ⟨F,returned_invariant inv owned (fun f other used => ?_)⟩
    have differ : ¬ (a.toNat/4096 ≤ f ∧ f < a.toNat/4096+n.toNat) := other
    rw [is_used_pfa_free_contiguous _ _ _ _ fits]
    simp [used,differ]

end Steps

/-! ### Runs -/

/-- The world when `kheap_init` has returned. -/
def opening (base : Word) (frames : Frames) (m : Memory) : World :=
  { heap := kheap_init base ⟨frames,m,0#32,[]⟩, own := fun _ => False, live := [] }

/-- `pfa_init` frees neither the first nor the last frame. -/
theorem init_ends_used {b : Boot} {fuel : Nat} {frames : Frames} (ended : b.init fuel = some frames) :
    is_used frames 0 = true ∧ is_used frames 0xFFFFF = true := by
  constructor
  · by_contra unused
    exact ((init_free_iff ended 0).mp (by simpa using unused)).2 (.inl (by decide))
  · by_contra unused
    obtain ⟨freed,_⟩ := (init_free_iff ended 0xFFFFF).mp (by simpa using unused)
    have outside : ∀ a e : Word, ¬ FreeRegion a e 0xFFFFF := by
      intro a e inside
      have := e.isLt
      simp only [FreeRegion] at inside
      omega
    rcases freed with ⟨_,entry,_,_,_,inside⟩ | ⟨_,_,inside⟩
    · exact outside _ _ inside
    · exact outside _ _ inside

theorem opening_invariant {base : Word} {frames : Frames} (m : Memory) (guarded : ∀ f, Barred base f → is_used frames f = true)
    (anchored : 0 < base.toNat ∧ base.toNat+8 ≤ 2^32) : Invariant base (opening base frames m) {base} := by
  have next : s_next (kheap_init base ⟨frames,m,0#32,[]⟩).mem base = base := by
    rw [kheap_init,s_next_set_units anchored.2,s_next_set_next]
  have none : ∀ x, ¬ Region [] x := by
    rintro x ⟨k,inside,_⟩
    cases inside
  constructor
  case sound =>
    refine ⟨?_,Finset.mem_singleton_self base,?_,?_,fun f guard => .inr (.inr guard)⟩
    · constructor
      case sentinel => exact Finset.mem_singleton_self base
      case empty => exact s_units_set_units _ _ _
      case ring =>
        intro a inside
        rw [Finset.mem_singleton.mp inside]
        change IsNext {base} base (s_next (kheap_init base ⟨frames,m,0#32,[]⟩).mem base)
        rw [next]
        exact isNext_singleton base
      case notLive => simp [opening,headers]
      case parts =>
        have noBlock : blocks base {base} (headers (opening base frames m).live) = ∅ := by
          simp [blocks,opening,headers]
        rw [noBlock]
        exact ⟨by simp,by simp,fun x inside => absurd inside (none x),by simp,fun x inside => absurd inside (none x)⟩
      case coalesced =>
        intro a insideA b insideB differ
        exact absurd ((Finset.mem_singleton.mp insideA).trans (Finset.mem_singleton.mp insideB).symm) differ
      case clear => exact fun x inside => absurd inside (none x)
      case anchored => exact anchored
    · rintro f ⟨k,inside,_⟩
      cases inside
    · rintro f (isOwn | guard)
      · cases isOwn
      · refine ⟨guarded f guard,?_⟩
        rintro ⟨k,inside,_⟩
        cases inside
  case distinct => exact List.nodup_nil
  case units =>
    intro b isLive
    cases isLive
  case ownFree =>
    intro f isOwn
    cases isOwn

theorem run_invariant {base : Word} {frames : Frames} {m : Memory} (guarded : ∀ f, Barred base f → is_used frames f = true)
    (anchored : 0 < base.toNat ∧ base.toNat+8 ≤ 2^32) {w : World}
    (run : Relation.ReflTransGen (Step base) (opening base frames m) w) : ∃ F, Invariant base w F := by
  induction run with
  | refl => exact ⟨{base},opening_invariant m guarded anchored⟩
  | tail _ step ih =>
    obtain ⟨F,inv⟩ := ih
    exact step_invariant inv step

/-! ### The heap as its clients see it -/

/-- A run of eight-byte units. -/
structure Extent where
  start : Nat
  units : Nat

def Extent.Contains (e : Extent) (x : Nat) : Prop := e.start ≤ x ∧ x < e.start+8*e.units
def Disjoint (d e : Extent) : Prop := ∀ x, ¬ (d.Contains x ∧ e.Contains x)

/-- The free blocks of a list of headers, without the sentinel. -/
def freeBlocks (base : Word) (m : Memory) (ring : List Word) : List Extent :=
  (ring.filter (· ≠ base)).map fun a => ⟨a.toNat,(s_units m a).toNat⟩
/-- The live blocks, with their headers. -/
def liveBlocks (live : List LiveBlock) : List Extent := live.map fun b => ⟨b.header.toNat,b.units.toNat⟩

/-- The free list `ring`, followed from `freep`, and the blocks. -/
structure WellFormed (base : Word) (w : World) (ring : List Word) : Prop where
  starts : ring.head? = some w.heap.freep
  linked : (ring++[w.heap.freep]).IsChain (fun a b => s_next w.heap.mem a = b)
  sentinel : base ∈ ring ∧ s_units w.heap.mem base = 0#32
  /-- Some rotation of the ring is strictly increasing. -/
  oneWrap : ∃ n, (ring.rotate n).Pairwise (fun a b => a.toNat < b.toNat)
  /-- No free block ends where another one starts. -/
  coalesced : ∀ a ∈ ring, ∀ b ∈ ring, a ≠ b → a.toNat+8*(s_units w.heap.mem a).toNat ≠ b.toNat
  headersKept : ∀ b ∈ w.live, s_units w.heap.mem b.header = b.units
  disjoint : (freeBlocks base w.heap.mem ring++liveBlocks w.live).Pairwise Disjoint
  divides : ∀ x, Held w.heap.cores (x/4096) ↔ ∃ e ∈ freeBlocks base w.heap.mem ring++liveBlocks w.live, e.Contains x
  /-- The sentinel's header is not part of these pages. -/
  apart : ∀ x, base.toNat ≤ x → x < base.toNat+8 → ¬ Held w.heap.cores (x/4096)

theorem invariant_wellFormed {base : Word} {w : World} {F : Finset Word} (inv : Invariant base w F) :
    ∃ ring, WellFormed base w ring := by
  have shape := inv.sound.shape
  obtain ⟨ring,starts,linked,members,n,ordered⟩ := ring_list shape.ring inv.sound.head
  have nodup : ring.Nodup := by
    refine List.nodup_rotate.mp (ordered.imp ?_)
    rintro a b less rfl
    omega
  have isFree : ∀ {a}, a ∈ ring.filter (· ≠ base) → a ∈ blocks base F (headers w.live) := by
    intro a inside
    obtain ⟨within,other⟩ := List.mem_filter.mp inside
    exact mem_blocks.mpr (.inl ⟨by simpa using other,(members a).mp within⟩)
  have isLive : ∀ {b}, b ∈ w.live → b.header ∈ blocks base F (headers w.live) := fun within =>
    mem_blocks.mpr (.inr (mem_headers.mpr ⟨_,within,rfl⟩))
  have contains : ∀ b ∈ w.live, ∀ x, (Extent.mk b.header.toNat b.units.toNat).Contains x ↔
      Covers (s_units w.heap.mem) b.header x := by
    intro b within x
    rw [Covers,inv.units b within]
    rfl
  refine ⟨ring,starts,linked,⟨(members base).mpr shape.sentinel,shape.empty⟩,⟨n,ordered⟩,?_,inv.units,?_,?_,?_⟩
  · exact fun a insideA b insideB => shape.coalesced a ((members a).mp insideA) b ((members b).mp insideB)
  · rw [List.pairwise_append]
    refine ⟨?_,?_,?_⟩
    · rw [freeBlocks,List.pairwise_map]
      refine (nodup.filter _).imp_of_mem ?_
      rintro a b insideA insideB differ x ⟨first,second⟩
      exact differ (shape.parts.apart a (isFree insideA) b (isFree insideB) x first second)
    · rw [liveBlocks,List.pairwise_map]
      refine (List.pairwise_map.mp inv.distinct).imp_of_mem ?_
      rintro a b insideA insideB differ x ⟨first,second⟩
      exact differ (shape.parts.apart _ (isLive insideA) _ (isLive insideB) x ((contains a insideA x).mp first)
        ((contains b insideB x).mp second))
    · rintro d insideD e insideE x ⟨first,second⟩
      obtain ⟨a,free,rfl⟩ := List.mem_map.mp insideD
      obtain ⟨b,live,rfl⟩ := List.mem_map.mp insideE
      have same := shape.parts.apart a (isFree free) _ (isLive live) x first ((contains b live x).mp second)
      have within := (members a).mp (List.mem_filter.mp free).1
      exact shape.notLive a within (mem_headers.mpr ⟨b,live,same.symm⟩)
  · intro x
    constructor
    · intro held
      obtain ⟨a,block,covers⟩ := shape.parts.covered x held
      rcases mem_blocks.mp block with ⟨other,free⟩ | live
      · refine ⟨_,List.mem_append_left _ (List.mem_map_of_mem (List.mem_filter.mpr ⟨(members a).mpr free,?_⟩)),covers⟩
        simpa using other
      · obtain ⟨b,within,rfl⟩ := mem_headers.mp live
        exact ⟨_,List.mem_append_right _ (List.mem_map_of_mem within),(contains b within x).mpr covers⟩
    · rintro ⟨e,inside,holds⟩
      rcases List.mem_append.mp inside with free | live
      · obtain ⟨a,within,rfl⟩ := List.mem_map.mp free
        exact shape.parts.inside a (isFree within) x holds
      · obtain ⟨b,within,rfl⟩ := List.mem_map.mp live
        exact shape.parts.inside _ (isLive within) x ((contains b within x).mp holds)
  · intro x low high held
    have := shape.clear x held
    omega

/-- The sentinel lies in the kernel image, behind its first byte, and the allocator does
    not have the frames of the image. -/
theorem reachable_invariant {b : Boot} {fuel : Nat} {frames : Frames} (ended : b.init fuel = some frames) {base : Word}
    (inImage : b.kernel_physical_start.toNat < base.toNat ∧ base.toNat+8 ≤ b.kernel_physical_end.toNat)
    (image : ∀ f, Shares f b.kernel_physical_start.toNat b.kernel_physical_end.toNat → is_used frames f = true)
    {m : Memory} {w : World} (run : Relation.ReflTransGen (Step base) (opening base frames m) w) :
    ∃ F, Invariant base w F := by
  have ends := init_ends_used ended
  have guarded : ∀ f, Barred base f → is_used frames f = true := by
    rintro f (rfl | rfl | ⟨x,low,high,rfl⟩)
    · exact ends.2
    · exact ends.1
    · exact image _ ⟨x,by omega,by omega,by omega,by omega⟩
  have bound := b.kernel_physical_end.isLt
  exact run_invariant guarded ⟨by omega,by omega⟩ run

/-- In every state of every run after `pfa_init` and `kheap_init` the free list is a
    ring in address order with one wrap and nothing left to join, the free and the
    live blocks divide the pages of `morecore`, and both calls return. The sentinel
    lies in the kernel image, behind its first byte, and the allocator does not have
    the frames of the image. -/
theorem heap_well_formed {b : Boot} {fuel : Nat} {frames : Frames} (ended : b.init fuel = some frames) {base : Word}
    (inImage : b.kernel_physical_start.toNat < base.toNat ∧ base.toNat+8 ≤ b.kernel_physical_end.toNat)
    (image : ∀ f, Shares f b.kernel_physical_start.toNat b.kernel_physical_end.toNat → is_used frames f = true)
    {m : Memory} {w : World} (run : Relation.ReflTransGen (Step base) (opening base frames m) w) :
    (∃ ring, WellFormed base w ring) ∧ (∀ bytes, ∃ r, kmalloc (2^34) base w.heap bytes = some r) ∧
      ∀ l ∈ w.live, ∃ h, kfree (2^34) base w.heap l.ptr = some h := by
  obtain ⟨F,inv⟩ := reachable_invariant ended inImage image run
  refine ⟨invariant_wellFormed inv,fun bytes => kmalloc_returns inv.sound (by decide) bytes,?_⟩
  intro l isLive
  rw [kfree,← header_ptr l]
  have inside : l.header ∈ headers w.live := mem_headers.mpr ⟨l,isLive,rfl⟩
  exact kfree_internal_returns inv.sound.shape inv.sound.head inside (live_below inv.sound (.inr (.inl rfl)) inside)
    (by decide)

/-! ### The small PC -/

/-- An address for the sentinel in the image of the small PC. -/
def pcBase : Word := 0x13F000#32

/-- The first request that needs less than a page takes the upper units of the first page. -/
theorem first_request {frames frames' : Frames} {page : Word} (pageIs : page = 0x1000#32 ∨ page = 0xFFFFF000#32)
    (found : pfa_alloc_contiguous frames 1#32 = (page,frames')) {bytes units : Word} (nonzero : bytes ≠ 0#32)
    (request : request_units bytes = units) (pages : core_pages units = 1#32) (small : 0#32 < units ∧ units < 512#32)
    (fuel : Nat) :
    ∃ h, kmalloc (fuel+2) pcBase (opening pcBase frames (fun _ => 0#8)).heap bytes =
        some (header_add (header_add page (512#32-units)) 1#32,h) ∧
      s_units h.mem (header_add page (512#32-units)) = units ∧ h.frames = frames' ∧ h.freep = pcBase ∧
      s_next h.mem pcBase = page ∧ s_units h.mem page = 512#32-units := by
  let m₀ := set_units (set_next (fun _ => 0#8) pcBase pcBase) pcBase 0#32
  let m₁ := set_units m₀ page 512#32
  let m₂ := join_lower (join_upper m₁ page pcBase) page pcBase
  have start : s_next m₀ pcBase = pcBase ∧ s_units m₀ pcBase = 0#32 := by decide +kernel
  have notNull : ¬ page = 0#32 ∧ ¬ header_add page 1#32 = 0#32 := by
    rcases pageIs with rfl | rfl
    · decide
    · decide
  have place : find_place m₁ page (fuel+1) pcBase = some pcBase := by
    have around : s_next m₁ pcBase ≤ pcBase ∧ (pcBase < page ∨ page < s_next m₁ pcBase) ∧
        ¬ (pcBase < page ∧ page < s_next m₁ pcBase) := by
      rcases pageIs with rfl | rfl
      · decide +kernel
      · decide +kernel
    rw [find_place,if_neg around.2.2,if_pos ⟨around.1,around.2.1⟩]
  have linked : s_next m₂ pcBase = page ∧ s_units m₂ page = 512#32 := by
    rcases pageIs with rfl | rfl
    · decide +kernel
    · decide +kernel
  have freed : kfree_internal (fuel+1) pcBase ⟨frames',m₁,pcBase,[⟨page,1#32⟩]⟩ (header_add page 1#32) =
      some ⟨frames',m₂,pcBase,[⟨page,1#32⟩]⟩ := by
    simp only [kfree_internal,header_back]
    rw [if_neg notNull.2,if_neg (by decide),place]
    rfl
  have more : morecore (fuel+1) pcBase ⟨frames,m₀,pcBase,[]⟩ units = some (pcBase,⟨frames',m₂,pcBase,[⟨page,1#32⟩]⟩) := by
    simp only [morecore,pages,found]
    rw [if_neg notNull.1]
    change (kfree_internal (fuel+1) pcBase ⟨frames',m₁,pcBase,[⟨page,1#32⟩]⟩ (header_add page 1#32)).map _ = _
    rw [freed]
    rfl
  have rest : (512#32-units).toNat = 512-units.toNat ∧ 0 < units.toNat ∧ units.toNat < 512 := by bv_omega
  have fits : page.toNat+4096 ≤ 2^32 ∧ (page.toNat+4096 ≤ pcBase.toNat ∨ pcBase.toNat+8 ≤ page.toNat) := by
    rcases pageIs with rfl | rfl
    · decide
    · decide
  have tail : (header_add page (512#32-units)).toNat = page.toNat+8*(512-units.toNat) := by
    rw [header_add_toNat (by omega),rest.1]
  have base : pcBase.toNat+8 ≤ 2^32 := by decide
  refine ⟨⟨frames',set_units (set_units m₂ page (512#32-units)) (header_add page (512#32-units)) units,pcBase,
    [⟨page,1#32⟩]⟩,?_,s_units_set_units _ _ _,rfl,rfl,?_,?_⟩
  rotate_left
  · exact (sameHeader_set_units (by omega) base (by omega)).1.trans
      ((sameHeader_set_units (by omega) base (by omega)).1.trans linked.1)
  · exact (sameHeader_set_units (by omega) (by omega) (by omega)).2.trans (s_units_set_units _ _ _)
  have heap : (opening pcBase frames (fun _ => 0#8)).heap = ⟨frames,m₀,pcBase,[]⟩ := rfl
  rw [kmalloc,kmalloc_counted,if_neg nonzero,heap]
  simp only [if_neg (show ¬ pcBase = 0#32 by decide),request,start.1]
  rw [kmalloc_loop,if_neg (by simp only [start.2]; bv_omega),if_pos rfl,more,Option.bind_some,
    if_neg (show ¬ pcBase = 0#32 by decide)]
  simp only [linked.1]
  rw [kmalloc_loop,if_pos (by simp only [linked.2]; bv_omega),if_neg (by simp only [linked.2]; bv_omega)]
  simp only [s_units_set_units,linked.2]
  rfl

/-- Another request takes the upper units of what is left. -/
theorem next_request {s : Heap} {page free bytes units : Word} (head : s.freep = pcBase) (next : s_next s.mem pcBase = page)
    (size : s_units s.mem page = free) (nonzero : bytes ≠ 0#32) (request : request_units bytes = units)
    (small : units < free) :
    ∃ h, kmalloc 1 pcBase s bytes = some (header_add (header_add page (free-units)) 1#32,h) ∧
      s_units h.mem (header_add page (free-units)) = units := by
  rw [kmalloc,kmalloc_counted,if_neg nonzero]
  simp only [head,if_neg (show ¬ pcBase = 0#32 by decide),request,next]
  rw [kmalloc_loop,if_pos (by rw [size]; exact BitVec.le_of_lt small),
    if_neg (by rw [size]; exact (BitVec.ne_of_lt small).symm)]
  simp only [s_units_set_units,size]
  exact ⟨_,rfl,s_units_set_units _ _ _⟩

/-- On the small PC the first page that is handed out is page 1. -/
theorem pc_first_page {frames : Frames} (ended : pc.init 3 = some frames) :
    ∃ frames', pfa_alloc_contiguous frames 1#32 = (0x1000#32,frames') := by
  have run : FreeRun frames 1 1 := by
    intro g low high
    exact pc_low_free ended (by omega) (by omega)
  rcases pfa_alloc_contiguous_cases frames 1#32 with ⟨_,zeroCount | none⟩ | ⟨r,_,_,free,least,found⟩
  · cases zeroCount
  · exact absurd run (none 1 (by decide))
  · have notLate : ¬ 1 < r := fun late => least 1 late run
    have notZero : r ≠ 0 := by
      rintro rfl
      have clash := free 0 (le_refl _) (by decide)
      simp [pc_zero_used ended] at clash
    rw [found,show r = 1 by omega]
    exact ⟨_,rfl⟩

theorem pc_image_used {frames : Frames} (ended : pc.init 3 = some frames) {f : Nat}
    (shares : Shares f pc.kernel_physical_start.toNat pc.kernel_physical_end.toNat) : is_used frames f = true := by
  by_contra unused
  exact ((init_free_iff ended f).mp (by simpa using unused)).2
    (.inr (.inl (shares_usedRegion pc_loaderData.imageEnd shares)))

/-- Two requests of ten bytes on the small PC. -/
theorem pc_two_blocks : ∃ frames w, pc.init 3 = some frames ∧
    Relation.ReflTransGen (Step pcBase) (opening pcBase frames (fun _ => 0#8)) w ∧
    w.live = [⟨0x1FD8#32,3#32⟩,⟨0x1FF0#32,3#32⟩] := by
  obtain ⟨frames,ended⟩ := pc_init
  obtain ⟨frames',found⟩ := pc_first_page ended
  have request : request_units 10#32 = 3#32 := by decide
  obtain ⟨h,returns,units,_,head,next,left⟩ := first_request (.inl rfl) found (by decide) request (by decide) (by decide) 3
  obtain ⟨h',returns',units'⟩ := next_request head next left (show (10#32 : Word) ≠ 0#32 by decide) request (by decide)
  rw [show header_add (header_add 0x1000#32 (512#32-3#32)) 1#32 = 0x1FF0#32 by decide] at returns
  rw [show header_add (header_add 0x1000#32 (512#32-3#32-3#32)) 1#32 = 0x1FD8#32 by decide] at returns'
  have first := Step.kmalloc (opening pcBase frames (fun _ => 0#8)) 5 10#32 0x1FF0#32 h returns
  have second := Step.kmalloc ((opening pcBase frames (fun _ => 0#8)).grant 0x1FF0#32 h) 1 10#32 0x1FD8#32 h' returns'
  refine ⟨frames,_,ended,(Relation.ReflTransGen.single first).tail second,?_⟩
  have lower : s_units h'.mem (0x1FD8#32-sizeof_Header) = 3#32 := units'
  have upper : s_units h.mem (0x1FF0#32-sizeof_Header) = 3#32 := units
  simp only [World.grant,if_neg (show ¬ (0x1FD8#32 : Word) = 0#32 by decide),
    if_neg (show ¬ (0x1FF0#32 : Word) = 0#32 by decide),lower,upper]
  rfl

/-- Then another part of the kernel takes a frame, and the first block is freed. -/
theorem heap_well_formed_pc : ∃ frames w ring, pc.init 3 = some frames ∧
    Relation.ReflTransGen (Step pcBase) (opening pcBase frames (fun _ => 0#8)) w ∧ w.live = [⟨0x1FD8#32,3#32⟩] ∧
    WellFormed pcBase w ring := by
  obtain ⟨frames,w,ended,run,live⟩ := pc_two_blocks
  have more := run.tail (Step.alloc w)
  obtain ⟨h,freed⟩ := (heap_well_formed ended (by decide) (fun f => pc_image_used ended) more).2.2 ⟨0x1FF0#32,3#32⟩
    (by simp [World.frames,live])
  have less := more.tail (Step.kfree _ _ _ (by simp [World.frames,live]) h freed)
  obtain ⟨ring,wellFormed⟩ := (heap_well_formed ended (by decide) (fun f => pc_image_used ended) less).1
  refine ⟨frames,_,ring,ended,less,?_,wellFormed⟩
  change w.live.erase _ = _
  rw [live]
  rfl

/-- The heap of the small PC after `kheap_init`. -/
theorem pc_sound {frames : Frames} (ended : pc.init 3 = some frames) :
    Sound pcBase (Busy pcBase (fun _ => False)) (opening pcBase frames (fun _ => 0#8)).heap {pcBase} ∅ := by
  have guarded : ∀ f, Barred pcBase f → is_used frames f = true := by
    have ends := init_ends_used ended
    rintro f (rfl | rfl | ⟨x,low,high,rfl⟩)
    · exact ends.2
    · exact ends.1
    · refine pc_image_used ended ⟨x,?_,?_,by omega,by omega⟩ <;>
        simp only [pcBase,pc,BitVec.toNat_ofNat] at low high ⊢ <;> omega
  exact (opening_invariant _ guarded (by decide)).sound

end SoKernel.HeapRuns
