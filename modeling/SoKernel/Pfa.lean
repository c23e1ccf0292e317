import SoKernel.Pages

/-!
The page frame allocator of `pfa.c`: one bit per 4 KiB frame of the 4 GiB
physical address space, and the operations that set, clear and search the bits.
Every operation is characterized by what it does to the set of used frames, so
that nothing after this module looks inside a bitmap word.
-/
namespace SoKernel.Pfa
open SoKernel.Words SoKernel.Pages
set_option linter.unusedSimpArgs false

abbrev PAGE_SIZE : Nat := 4096
/-- 4 GiB / 4 KiB. -/
abbrev MAX_FRAMES : Nat := 1024*1024
abbrev BITMAP_WORD_BITS : Nat := 32
abbrev BITMAP_WORDS : Nat := MAX_FRAMES / BITMAP_WORD_BITS

/-- The static data of the allocator; the bitmap is indexed by its words. -/
structure Frames where
  frame_bitmap : Nat → Word
  total_frame_count : Word
  used_frame_count : Word

def align_up (value align : Word) : Word := (value + (align-1#32)) &&& ~~~(align-1#32)
def align_down (value align : Word) : Word := value &&& ~~~(align-1#32)

def mark_used (s : Frames) (frame_idx : Nat) : Frames :=
  let word := frame_idx / BITMAP_WORD_BITS
  let bit := frame_idx % BITMAP_WORD_BITS
  let mask := 1#32 <<< bit
  if s.frame_bitmap word &&& mask = 0#32 then
    { s with
      frame_bitmap := Function.update s.frame_bitmap word (s.frame_bitmap word ||| mask)
      used_frame_count := s.used_frame_count+1#32 }
  else s

def mark_free (s : Frames) (frame_idx : Nat) : Frames :=
  let word := frame_idx / BITMAP_WORD_BITS
  let bit := frame_idx % BITMAP_WORD_BITS
  let mask := 1#32 <<< bit
  if s.frame_bitmap word &&& mask ≠ 0#32 then
    { s with
      frame_bitmap := Function.update s.frame_bitmap word (s.frame_bitmap word &&& ~~~mask)
      used_frame_count := s.used_frame_count-1#32 }
  else s

def is_used (s : Frames) (frame_idx : Nat) : Bool :=
  let word := frame_idx / BITMAP_WORD_BITS
  let bit := frame_idx % BITMAP_WORD_BITS
  (s.frame_bitmap word >>> bit) &&& 1#32 ≠ 0#32

/-- The loop that both region functions end in, over the frames from `first` to
    before `last`. -/
def mark_region (mark : Frames → Nat → Frames) (first last : Nat) (s : Frames) : Frames :=
  (last-first).fold (fun i _ s => if first+i < MAX_FRAMES then mark s (first+i) else s) s

def mark_region_free (s : Frames) (start_addr end_addr : Word) : Frames :=
  let start := align_up start_addr (BitVec.ofNat 32 PAGE_SIZE)
  let stop := align_down end_addr (BitVec.ofNat 32 PAGE_SIZE)
  if stop ≤ start then s
  else mark_region mark_free (start.toNat / PAGE_SIZE) (stop.toNat / PAGE_SIZE) s

def mark_region_used (s : Frames) (start_addr end_addr : Word) : Frames :=
  let start := align_down start_addr (BitVec.ofNat 32 PAGE_SIZE)
  let stop := align_up end_addr (BitVec.ofNat 32 PAGE_SIZE)
  if stop ≤ start then s
  else mark_region mark_used (start.toNat / PAGE_SIZE) (stop.toNat / PAGE_SIZE) s

/-- The search of `pfa_alloc` over the `left` frames from `frame_idx` on. -/
def pfa_alloc_from (s : Frames) : Nat → Nat → Word × Frames
  | 0, _ => (0#32,s)
  | left+1, frame_idx =>
    if !is_used s frame_idx then (BitVec.ofNat 32 (frame_idx*PAGE_SIZE),mark_used s frame_idx)
    else pfa_alloc_from s left (frame_idx+1)

def pfa_alloc (s : Frames) : Word × Frames := pfa_alloc_from s MAX_FRAMES 0

def pfa_free (s : Frames) (frame_addr : Word) : Frames :=
  let frame_idx := frame_addr.toNat / PAGE_SIZE
  if frame_idx < MAX_FRAMES then mark_free s frame_idx else s

/-- The search of `pfa_alloc_contiguous` over the `left` frames from `frame_idx`
    on, with the length and the start of the current run of free frames. -/
def pfa_alloc_contiguous_from (s : Frames) (frame_count : Word) : Nat → Nat → Nat → Nat → Word × Frames
  | 0, _, _, _ => (0#32,s)
  | left+1, frame_idx, run, run_start =>
    if !is_used s frame_idx then
      let run_start := if run = 0 then frame_idx else run_start
      let run := run+1
      if run = frame_count.toNat then
        (BitVec.ofNat 32 (run_start*PAGE_SIZE),
          frame_count.toNat.fold (fun i _ s => mark_used s (run_start+i)) s)
      else pfa_alloc_contiguous_from s frame_count left (frame_idx+1) run run_start
    else pfa_alloc_contiguous_from s frame_count left (frame_idx+1) 0 run_start

def pfa_alloc_contiguous (s : Frames) (frame_count : Word) : Word × Frames :=
  if frame_count = 0#32 then (0#32,s)
  else pfa_alloc_contiguous_from s frame_count MAX_FRAMES 0 0 0

def pfa_free_contiguous (s : Frames) (frame_addr frame_count : Word) : Frames :=
  let base := frame_addr.toNat / PAGE_SIZE
  frame_count.toNat.fold (fun i _ s =>
    if (base+i) % 2^32 < MAX_FRAMES then mark_free s ((base+i) % 2^32) else s) s

def pfa_reserve (s : Frames) (start_addr end_addr : Word) : Frames := mark_region_used s start_addr end_addr

def pfa_total_frames (s : Frames) : Word := s.total_frame_count
def pfa_used_frames (s : Frames) : Word := s.used_frame_count
def pfa_free_frames (s : Frames) : Word := s.total_frame_count-s.used_frame_count

/-! ### One bit -/

theorem is_used_bit (s : Frames) (f : Nat) : is_used s f = (s.frame_bitmap (f/32)).getLsbD (f%32) := by
  simp only [is_used,BITMAP_WORD_BITS]
  generalize s.frame_bitmap (f/32) = w
  have low := and_bit_zero (i := 0) (by decide) (w >>> (f%32))
  rw [BitVec.shiftLeft_zero,BitVec.getLsbD_ushiftRight,Nat.add_zero] at low
  by_cases set : w.getLsbD (f%32)
  · simp [low,set]
  · simp [low,set]

private theorem same_frame {f g : Nat} (word : g/32 = f/32) : g%32 = f%32 ↔ g = f := by omega

@[simp] theorem is_used_mark_used (s : Frames) (f g : Nat) :
    is_used (mark_used s f) g = (decide (g = f) || is_used s g) := by
  have inside : f%32 < 32 := Nat.mod_lt _ (by decide)
  have bit := and_bit_zero inside (s.frame_bitmap (f/32))
  simp only [mark_used,BITMAP_WORD_BITS]
  by_cases clear : s.frame_bitmap (f/32) &&& 1#32 <<< (f%32) = 0#32
  · simp only [clear,if_true,is_used_bit]
    by_cases word : g/32 = f/32
    · rw [word,Function.update_self,BitVec.getLsbD_or,bit_getLsbD inside,Bool.or_comm]
      simp only [same_frame word]
    · rw [Function.update_of_ne word]
      have ne : g ≠ f := fun same => word (by rw [same])
      simp [ne]
  · simp only [clear,if_false]
    by_cases same : g = f
    · have set : is_used s f = true := by simpa [is_used_bit] using fun h => clear (bit.mpr h)
      simp [same,set]
    · simp [same]

@[simp] theorem is_used_mark_free (s : Frames) (f g : Nat) :
    is_used (mark_free s f) g = (!decide (g = f) && is_used s g) := by
  have inside : f%32 < 32 := Nat.mod_lt _ (by decide)
  have bit := and_bit_zero inside (s.frame_bitmap (f/32))
  simp only [mark_free,BITMAP_WORD_BITS]
  by_cases clear : s.frame_bitmap (f/32) &&& 1#32 <<< (f%32) = 0#32
  · simp only [clear,ne_eq,not_true_eq_false,if_false]
    by_cases same : g = f
    · have free : is_used s f = false := by simpa [is_used_bit] using bit.mp clear
      simp [same,free]
    · simp [same]
  · simp only [clear,ne_eq,not_false_eq_true,if_true,is_used_bit]
    by_cases word : g/32 = f/32
    · have bound : g%32 < 32 := Nat.mod_lt _ (by decide)
      rw [word,Function.update_self,BitVec.getLsbD_and,BitVec.getLsbD_not,bit_getLsbD inside,Bool.and_comm]
      simp only [same_frame word,bound,decide_true,Bool.true_and]
    · rw [Function.update_of_ne word]
      have ne : g ≠ f := fun same => word (by rw [same])
      simp [ne]

/-! ### Regions -/

theorem align_down_toNat (value : Word) :
    (align_down value (BitVec.ofNat 32 PAGE_SIZE)).toNat = value.toNat / 4096 * 4096 :=
  and_high_toNat 12 value _ (by decide)

theorem align_up_toNat (value : Word) :
    (align_up value (BitVec.ofNat 32 PAGE_SIZE)).toNat = (value.toNat+4095) % 2^32 / 4096 * 4096 := by
  have sum : (value+4095#32).toNat = (value.toNat+4095) % 2^32 := by rw [BitVec.toNat_add,BitVec.toNat_ofNat]
  rw [← sum]
  exact and_high_toNat 12 (value+4095#32) _ (by decide)

/-- A marking function sets the bit of its frame to `v` and no other bit. -/
def Marks (mark : Frames → Nat → Frames) (v : Bool) : Prop :=
  ∀ s f g, is_used (mark s f) g = if g = f then v else is_used s g

theorem mark_used_marks : Marks mark_used true := by
  intro s f g
  by_cases same : g = f <;> simp [same]

theorem mark_free_marks : Marks mark_free false := by
  intro s f g
  by_cases same : g = f <;> simp [same]

theorem mark_region_correct {mark : Frames → Nat → Frames} {v : Bool} (marks : Marks mark v)
    (first last : Nat) (s : Frames) (g : Nat) :
    is_used (mark_region mark first last s) g =
      if first ≤ g ∧ g < last ∧ g < MAX_FRAMES then v else is_used s g := by
  have rounds : ∀ n, is_used (n.fold (fun i _ s => if first+i < MAX_FRAMES then mark s (first+i) else s) s) g =
      if first ≤ g ∧ g < first+n ∧ g < MAX_FRAMES then v else is_used s g := by
    intro n
    refine fold_invariant (fun n t => is_used t g = if first ≤ g ∧ g < first+n ∧ g < MAX_FRAMES then v else is_used s g)
      (by simp; omega) ?_
    intro i _ t ih
    by_cases guard : first+i < MAX_FRAMES
    · rw [if_pos guard,marks,ih]
      by_cases same : g = first+i
      · simp [same,guard]
      · simp only [same,if_false]
        congr 1
        apply propext
        omega
    · rw [if_neg guard,ih]
      congr 1
      apply propext
      omega
  rw [mark_region,rounds]
  congr 1
  apply propext
  omega

/-- The frames that `mark_region_used` visits. -/
def UsedRegion (start_addr end_addr : Word) (f : Nat) : Prop :=
  start_addr.toNat/4096 ≤ f ∧ f < (end_addr.toNat+4095) % 2^32 / 4096

/-- The frames that `mark_region_free` visits. -/
def FreeRegion (start_addr end_addr : Word) (f : Nat) : Prop :=
  (start_addr.toNat+4095) % 2^32 / 4096 ≤ f ∧ f < end_addr.toNat/4096

instance (a b : Word) (f : Nat) : Decidable (UsedRegion a b f) := inferInstanceAs (Decidable (_ ∧ _))
instance (a b : Word) (f : Nat) : Decidable (FreeRegion a b f) := inferInstanceAs (Decidable (_ ∧ _))

theorem usedRegion_bound {a b : Word} {f : Nat} (inside : UsedRegion a b f) : f < MAX_FRAMES := by
  have := inside.2
  simp only [MAX_FRAMES]
  omega

theorem freeRegion_bound {a b : Word} {f : Nat} (inside : FreeRegion a b f) : f < MAX_FRAMES := by
  have := inside.2
  have := b.isLt
  simp only [MAX_FRAMES]
  omega

@[simp] theorem is_used_mark_region_used (s : Frames) (a b : Word) (g : Nat) :
    is_used (mark_region_used s a b) g = (decide (UsedRegion a b g) || is_used s g) := by
  have bound : UsedRegion a b g → g < MAX_FRAMES := usedRegion_bound
  simp only [mark_region_used,BitVec.le_def,align_up_toNat,align_down_toNat,PAGE_SIZE,
    Nat.mul_div_cancel _ (show 0 < 4096 by decide)]
  by_cases none : (b.toNat+4095) % 2^32 / 4096 * 4096 ≤ a.toNat/4096 * 4096
  · rw [if_pos none]
    have outside : ¬ UsedRegion a b g := by simp only [UsedRegion]; omega
    simp [outside]
  · rw [if_neg none,mark_region_correct mark_used_marks]
    by_cases inside : UsedRegion a b g
    · rw [if_pos ⟨inside.1,inside.2,bound inside⟩]
      simp [inside]
    · rw [if_neg (fun h => inside ⟨h.1,h.2.1⟩)]
      simp [inside]

@[simp] theorem is_used_mark_region_free (s : Frames) (a b : Word) (g : Nat) :
    is_used (mark_region_free s a b) g = (!decide (FreeRegion a b g) && is_used s g) := by
  have bound : FreeRegion a b g → g < MAX_FRAMES := freeRegion_bound
  simp only [mark_region_free,BitVec.le_def,align_up_toNat,align_down_toNat,PAGE_SIZE,
    Nat.mul_div_cancel _ (show 0 < 4096 by decide)]
  by_cases none : b.toNat/4096 * 4096 ≤ (a.toNat+4095) % 2^32 / 4096 * 4096
  · rw [if_pos none]
    have outside : ¬ FreeRegion a b g := by simp only [FreeRegion]; omega
    simp [outside]
  · rw [if_neg none,mark_region_correct mark_free_marks]
    by_cases inside : FreeRegion a b g
    · rw [if_pos ⟨inside.1,inside.2,bound inside⟩]
      simp [inside]
    · rw [if_neg (fun h => inside ⟨h.1,h.2.1⟩)]
      simp [inside]

/-! ### Searching -/

/-- `count` free frames from `start` on. -/
def FreeRun (s : Frames) (start count : Nat) : Prop := ∀ g, start ≤ g → g < start+count → is_used s g = false

private theorem pfa_alloc_from_cases (s : Frames) (left i : Nat) (before : ∀ g < i, is_used s g = true) :
    (pfa_alloc_from s left i = (0#32,s) ∧ ∀ g < i+left, is_used s g = true) ∨
      ∃ f < i+left, is_used s f = false ∧ (∀ g < f, is_used s g = true) ∧
        pfa_alloc_from s left i = (pageAddr f,mark_used s f) := by
  induction left generalizing i with
  | zero => exact .inl ⟨rfl,before⟩
  | succ left ih =>
    rw [pfa_alloc_from]
    by_cases used : is_used s i = true
    · have onward : ∀ g < i+1, is_used s g = true := by
        intro g below
        rcases Nat.lt_succ_iff_lt_or_eq.mp below with lt | rfl
        · exact before g lt
        · exact used
      simp only [used,Bool.not_true,Bool.false_eq_true,if_false]
      rw [show i+(left+1) = i+1+left by omega]
      exact ih (i+1) onward
    · have free : is_used s i = false := by simpa using used
      refine .inr ⟨i,by omega,free,before,?_⟩
      simp [free,pageAddr,PAGE_SIZE]

/-- `pfa_alloc` takes the lowest free frame, and returns 0 exactly when it
    takes none or takes frame 0. -/
theorem pfa_alloc_cases (s : Frames) :
    (pfa_alloc s = (0#32,s) ∧ ∀ g < MAX_FRAMES, is_used s g = true) ∨
      ∃ f < MAX_FRAMES, is_used s f = false ∧ (∀ g < f, is_used s g = true) ∧
        pfa_alloc s = (pageAddr f,mark_used s f) := by
  have found := pfa_alloc_from_cases s MAX_FRAMES 0 (by simp)
  rwa [Nat.zero_add] at found

/-- While frame 0 is used, 0 means that there was no free frame. -/
theorem pfa_alloc_nonzero {s : Frames} (zero : is_used s 0 = true) {f : Nat} (inside : f < MAX_FRAMES)
    (free : is_used s f = false) : pageAddr f ≠ 0#32 := by
  intro null
  have value := congrArg BitVec.toNat null
  rw [pageAddr_toNat inside,BitVec.toNat_ofNat] at value
  have first : f = 0 := by omega
  rw [first,zero] at free
  cases free

/-- The lowest free frame is the one that is taken. -/
theorem pfa_alloc_eq {s : Frames} {f : Nat} (inside : f < MAX_FRAMES) (free : is_used s f = false)
    (below : ∀ g < f, is_used s g = true) : pfa_alloc s = (pageAddr f,mark_used s f) := by
  rcases pfa_alloc_cases s with ⟨_,full⟩ | ⟨g,_,freeG,belowG,found⟩
  · have used := full f inside
    rw [free] at used
    cases used
  · rcases Nat.lt_trichotomy f g with lt | same | gt
    · have used := belowG f lt
      rw [free] at used
      cases used
    · rw [found,same]
    · have used := below g gt
      rw [freeG] at used
      cases used

theorem is_used_mark_run (s : Frames) (start n g : Nat) :
    is_used (n.fold (fun i _ s => mark_used s (start+i)) s) g =
      (decide (start ≤ g ∧ g < start+n) || is_used s g) := by
  refine fold_invariant (fun n t => is_used t g = (decide (start ≤ g ∧ g < start+n) || is_used s g))
    (by simp) ?_
  intro i _ t ih
  rw [is_used_mark_used,ih,← Bool.or_assoc,← Bool.decide_or]
  congr 2
  apply propext
  omega

/-- What the loop of `pfa_alloc_contiguous` knows before it looks at frame `i`:
    the run that ends there, what ended the run before, and that no run of
    `n` free frames ends earlier. -/
private structure Scanning (s : Frames) (n i run run_start : Nat) : Prop where
  runFree : FreeRun s (i-run) run
  short : run < n
  fits : run ≤ i
  starts : 0 < run → run_start = i-run
  edge : run = i ∨ is_used s (i-run-1) = true
  noneBefore : ∀ t, t+n ≤ i → ¬ FreeRun s t n

private theorem scanning_used {s : Frames} {n i run start : Nat} (scan : Scanning s n i run start)
    (used : is_used s i = true) : Scanning s n (i+1) 0 start where
  runFree := by intro g low high; omega
  short := by have := scan.short; omega
  fits := by omega
  starts := by omega
  edge := .inr (by simpa using used)
  noneBefore := by
    intro t ends free
    by_cases earlier : t+n ≤ i
    · exact scan.noneBefore t earlier free
    · have short := scan.short
      have clash := free i (by omega) (by omega)
      rw [used] at clash
      cases clash

private theorem scanning_extend {s : Frames} {n i run start : Nat} (scan : Scanning s n i run start)
    (free : is_used s i = false) :
    FreeRun s (i+1-(run+1)) (run+1) ∧ (if run = 0 then i else start) = i+1-(run+1) := by
  have fits := scan.fits
  refine ⟨?_,?_⟩
  · intro g low high
    by_cases last : g = i
    · rw [last]; exact free
    · exact scan.runFree g (by omega) (by omega)
  · by_cases empty : run = 0
    · simp [empty]
    · have starts := scan.starts (by omega)
      simp only [empty,if_false]
      omega

private theorem scanning_free {s : Frames} {n i run start : Nat} (scan : Scanning s n i run start)
    (free : is_used s i = false) (more : run+1 ≠ n) : Scanning s n (i+1) (run+1) (if run = 0 then i else start) where
  runFree := (scanning_extend scan free).1
  short := by have := scan.short; omega
  fits := by have := scan.fits; omega
  starts := fun _ => (scanning_extend scan free).2
  edge := by
    have fits := scan.fits
    rcases scan.edge with whole | used
    · exact .inl (by omega)
    · exact .inr (by rwa [show i+1-(run+1)-1 = i-run-1 by omega])
  noneBefore := by
    intro t ends runFree
    have short := scan.short
    have fits := scan.fits
    by_cases earlier : t+n ≤ i
    · exact scan.noneBefore t earlier runFree
    · -- The run would reach back over the frame that ended the run before.
      rcases scan.edge with whole | used
      · omega
      · have clash := runFree (i-run-1) (by omega) (by omega)
        rw [used] at clash
        cases clash

private theorem pfa_alloc_contiguous_from_cases (s : Frames) (n : Word) (left i run start : Nat)
    (scan : Scanning s n.toNat i run start) :
    (pfa_alloc_contiguous_from s n left i run start = (0#32,s) ∧
        ∀ t, t+n.toNat ≤ i+left → ¬ FreeRun s t n.toNat) ∨
      ∃ r, r+n.toNat ≤ i+left ∧ FreeRun s r n.toNat ∧ (∀ t < r, ¬ FreeRun s t n.toNat) ∧
        pfa_alloc_contiguous_from s n left i run start =
          (pageAddr r,n.toNat.fold (fun i _ s => mark_used s (r+i)) s) := by
  induction left generalizing i run start with
  | zero => exact .inl ⟨rfl,scan.noneBefore⟩
  | succ left ih =>
    rw [pfa_alloc_contiguous_from,show i+(left+1) = i+1+left by omega]
    by_cases used : is_used s i = true
    · simp only [used,Bool.not_true,Bool.false_eq_true,if_false]
      exact ih (i+1) 0 start (scanning_used scan used)
    · have free : is_used s i = false := by simpa using used
      simp only [free,Bool.not_false,if_true]
      by_cases full : run+1 = n.toNat
      · obtain ⟨runFree,startIs⟩ := scanning_extend scan free
        have fits := scan.fits
        refine .inr ⟨i+1-(run+1),by omega,by rwa [← full],?_,?_⟩
        · intro t below
          exact scan.noneBefore t (by omega)
        · rw [if_pos full,startIs]
          rfl
      · rw [if_neg full]
        exact ih (i+1) (run+1) _ (scanning_free scan free full)

/-- `pfa_alloc_contiguous` is first fit: it takes the lowest run of free frames
    that is long enough, or leaves the bitmap alone when there is none. -/
theorem pfa_alloc_contiguous_cases (s : Frames) (n : Word) :
    (pfa_alloc_contiguous s n = (0#32,s) ∧
        (n = 0#32 ∨ ∀ t, t+n.toNat ≤ MAX_FRAMES → ¬ FreeRun s t n.toNat)) ∨
      ∃ r, 0 < n.toNat ∧ r+n.toNat ≤ MAX_FRAMES ∧ FreeRun s r n.toNat ∧ (∀ t < r, ¬ FreeRun s t n.toNat) ∧
        pfa_alloc_contiguous s n =
          (pageAddr r,n.toNat.fold (fun i _ s => mark_used s (r+i)) s) := by
  rw [pfa_alloc_contiguous]
  by_cases zero : n = 0#32
  · exact .inl ⟨by simp [zero],.inl zero⟩
  · have positive : 0 < n.toNat := by
      rw [Nat.pos_iff_ne_zero]
      intro h
      exact zero (BitVec.eq_of_toNat_eq h)
    have scan : Scanning s n.toNat 0 0 0 :=
      { runFree := by intro g low high; omega
        short := positive
        fits := by omega
        starts := by omega
        edge := .inl rfl
        noneBefore := by intro t ends; omega }
    rw [if_neg zero]
    rcases pfa_alloc_contiguous_from_cases s n MAX_FRAMES 0 0 0 scan with ⟨failed,none⟩ | ⟨r,fits,free,least,found⟩
    · rw [Nat.zero_add] at none
      exact .inl ⟨failed,.inr none⟩
    · rw [Nat.zero_add] at fits
      exact .inr ⟨r,positive,fits,free,least,found⟩

/-! ### Giving frames back -/

@[simp] theorem is_used_pfa_free (s : Frames) (a : Word) (g : Nat) :
    is_used (pfa_free s a) g = (!decide (g = a.toNat/4096) && is_used s g) := by
  have inside : a.toNat/PAGE_SIZE < MAX_FRAMES := by
    have := a.isLt
    simp only [PAGE_SIZE,MAX_FRAMES]
    omega
  simp only [pfa_free,if_pos inside,is_used_mark_free]

theorem is_used_pfa_free_contiguous (s : Frames) (a n : Word) (g : Nat)
    (fits : a.toNat/4096+n.toNat ≤ MAX_FRAMES) :
    is_used (pfa_free_contiguous s a n) g =
      (!decide (a.toNat/4096 ≤ g ∧ g < a.toNat/4096+n.toNat) && is_used s g) := by
  simp only [MAX_FRAMES] at fits
  simp only [pfa_free_contiguous,PAGE_SIZE,MAX_FRAMES]
  refine fold_invariant
    (fun k t => is_used t g = (!decide (a.toNat/4096 ≤ g ∧ g < a.toNat/4096+k) && is_used s g)) (by simp; omega) ?_
  intro i inside t ih
  have noWrap : (a.toNat/4096+i) % 2^32 = a.toNat/4096+i := by omega
  rw [noWrap,if_pos (by omega),is_used_mark_free,ih,← Bool.and_assoc,← Bool.not_or,← Bool.decide_or]
  congr 3
  apply propext
  omega

/-! ### The counter -/

private theorem clear_iff (s : Frames) (f : Nat) :
    s.frame_bitmap (f/BITMAP_WORD_BITS) &&& 1#32 <<< (f%BITMAP_WORD_BITS) = 0#32 ↔ is_used s f = false := by
  rw [is_used_bit]
  exact and_bit_zero (Nat.mod_lt _ (by decide)) _

theorem mark_used_eq {s : Frames} {f : Nat} (used : is_used s f = true) : mark_used s f = s := by
  simp [mark_used,clear_iff,used]

theorem mark_free_eq {s : Frames} {f : Nat} (free : is_used s f = false) : mark_free s f = s := by
  simp [mark_free,clear_iff,free]

theorem mark_used_count {s : Frames} {f : Nat} (free : is_used s f = false) :
    (mark_used s f).used_frame_count = s.used_frame_count+1#32 := by
  simp [mark_used,clear_iff,free]

theorem mark_free_count {s : Frames} {f : Nat} (used : is_used s f = true) :
    (mark_free s f).used_frame_count = s.used_frame_count-1#32 := by
  simp [mark_free,clear_iff,used]

@[simp] theorem mark_used_total (s : Frames) (f : Nat) : (mark_used s f).total_frame_count = s.total_frame_count := by
  rw [mark_used]
  split
  · rfl
  · rfl

@[simp] theorem mark_free_total (s : Frames) (f : Nat) : (mark_free s f).total_frame_count = s.total_frame_count := by
  rw [mark_free]
  split
  · rfl
  · rfl

/-- The words of the bitmap hold nothing but the bits of the frames. -/
theorem frame_bitmap_ext {s t : Frames} (same : ∀ f, is_used s f = is_used t f) : s.frame_bitmap = t.frame_bitmap := by
  funext w
  refine BitVec.eq_of_getLsbD_eq (fun i inside => ?_)
  have bit := same (w*32+i)
  rwa [is_used_bit,is_used_bit,show (w*32+i)/32 = w by omega,show (w*32+i)%32 = i by omega] at bit

end SoKernel.Pfa
