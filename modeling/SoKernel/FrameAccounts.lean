import SoKernel.FrameCount
import SoKernel.FrameOwnership

/-!
The accounts of the page frame allocator. Whatever an operation does, it does by
setting or clearing the bits of single frames, and the counter moves with every bit.
So the counter tells the number of set bits in every run, a search takes what it
says it takes, and giving everything back restores the state that was there before.
-/
namespace SoKernel.FrameAccounts
open SoKernel.Words SoKernel.Pages SoKernel.Pfa SoKernel.PfaInit SoKernel.FrameOwnership SoKernel.FrameCount
set_option linter.unusedSimpArgs false

/-! ### One bit after another -/

/-- The bit of one frame changes, and the counter with it. -/
inductive Flip : Frames → Frames → Prop
  | use {s : Frames} {f : Nat} (inside : f < MAX_FRAMES) (free : is_used s f = false) : Flip s (mark_used s f)
  | release {s : Frames} {f : Nat} (inside : f < MAX_FRAMES) (used : is_used s f = true) : Flip s (mark_free s f)

abbrev Flips : Frames → Frames → Prop := Relation.ReflTransGen Flip

theorem flips_mark_used (s : Frames) {f : Nat} (inside : f < MAX_FRAMES) : Flips s (mark_used s f) := by
  by_cases used : is_used s f = true
  · rw [mark_used_eq used]
  · exact .single (.use inside (by simpa using used))

theorem flips_mark_free (s : Frames) {f : Nat} (inside : f < MAX_FRAMES) : Flips s (mark_free s f) := by
  by_cases used : is_used s f = true
  · exact .single (.release inside used)
  · rw [mark_free_eq (by simpa using used)]

theorem flips_fold {n : Nat} {round : (i : Nat) → i < n → Frames → Frames} (each : ∀ i inside t, Flips t (round i inside t))
    (s : Frames) : Flips s (n.fold round s) :=
  fold_invariant (fun _ t => Flips s t) .refl (fun i inside t before => before.trans (each i inside t))

theorem flips_mark_region {mark : Frames → Nat → Frames} (each : ∀ t f, f < MAX_FRAMES → Flips t (mark t f))
    (first last : Nat) (s : Frames) : Flips s (mark_region mark first last s) := by
  refine flips_fold (fun i _ t => ?_) s
  split
  · exact each t _ ‹_›
  · exact .refl

theorem flips_region_used (s : Frames) (a b : Word) : Flips s (mark_region_used s a b) := by
  simp only [mark_region_used]
  split
  · exact .refl
  · exact flips_mark_region (fun t f => flips_mark_used t) _ _ s

theorem flips_region_free (s : Frames) (a b : Word) : Flips s (mark_region_free s a b) := by
  simp only [mark_region_free]
  split
  · exact .refl
  · exact flips_mark_region (fun t f => flips_mark_free t) _ _ s

theorem flips_alloc (s : Frames) : Flips s (pfa_alloc s).2 := by
  rcases pfa_alloc_cases s with ⟨failed,_⟩ | ⟨f,inside,_,_,found⟩
  · rw [failed]
  · rw [found]
    exact flips_mark_used s inside

theorem flips_allocContiguous (s : Frames) (n : Word) : Flips s (pfa_alloc_contiguous s n).2 := by
  rcases pfa_alloc_contiguous_cases s n with ⟨failed,_⟩ | ⟨r,_,fits,_,_,found⟩
  · rw [failed]
  · rw [found]
    exact flips_fold (fun i inside t => flips_mark_used t (by omega)) s

theorem flips_free (s : Frames) (a : Word) : Flips s (pfa_free s a) := by
  simp only [pfa_free]
  split
  · exact flips_mark_free s ‹_›
  · exact .refl

theorem flips_freeContiguous (s : Frames) (a n : Word) : Flips s (pfa_free_contiguous s a n) := by
  refine flips_fold (fun i _ t => ?_) s
  split
  · exact flips_mark_free t ‹_›
  · exact .refl

/-! ### The counter and the bits -/

theorem usedCount_congr {s t : Frames} (same : ∀ f, is_used s f = is_used t f) : usedCount s = usedCount t := by
  simp only [usedCount,same]

theorem usedCount_mark_free {s : Frames} {f : Nat} (inside : f < MAX_FRAMES) (used : is_used s f = true) :
    usedCount s = usedCount (mark_free s f)+1 := by
  rw [← usedCount_mark_used inside (show is_used (mark_free s f) f = false by simp)]
  refine usedCount_congr (fun g => ?_)
  by_cases same : g = f
  · simp [same,used]
  · simp [same]

/-- How far the counter is from the number of used frames. -/
def drift (s : Frames) : Word := s.used_frame_count-BitVec.ofNat 32 (usedCount s)

theorem flip_drift {s t : Frames} (flip : Flip s t) : drift t = drift s ∧ t.total_frame_count = s.total_frame_count := by
  cases flip with
  | use inside free =>
    refine ⟨?_,mark_used_total s _⟩
    rw [drift,drift,mark_used_count free,usedCount_mark_used inside free,BitVec.ofNat_add]
    bv_omega
  | release inside used =>
    refine ⟨?_,mark_free_total s _⟩
    rw [drift,drift,mark_free_count used,usedCount_mark_free inside used,BitVec.ofNat_add]
    bv_omega

theorem flips_drift {s t : Frames} (flips : Flips s t) :
    drift t = drift s ∧ t.total_frame_count = s.total_frame_count := by
  induction flips with
  | refl => exact ⟨rfl,rfl⟩
  | tail _ flip ih =>
    obtain ⟨count,total⟩ := flip_drift flip
    exact ⟨count.trans ih.1,total.trans ih.2⟩

/-- When the bits are back where they were, so is the counter. -/
theorem flips_restored {s t : Frames} (flips : Flips s t) (same : ∀ f, is_used t f = is_used s f) : t = s := by
  obtain ⟨count,total⟩ := flips_drift flips
  have bitmap := frame_bitmap_ext same
  rw [drift,drift,usedCount_congr same] at count
  have used : t.used_frame_count = s.used_frame_count := by bv_omega
  cases s
  cases t
  simp_all

/-! ### First fit -/

/-- The lowest run of `n` free frames. -/
def FirstFit (s : Frames) (n r : Nat) : Prop := IsLeast {t | t+n ≤ MAX_FRAMES ∧ FreeRun s t n} r

theorem mark_run_count {s : Frames} {start n : Nat} (free : FreeRun s start n) :
    (n.fold (fun i _ s => mark_used s (start+i)) s).used_frame_count = s.used_frame_count+BitVec.ofNat 32 n := by
  -- The frames that the loop has still to mark are free.
  have rounds := fold_invariant (n := n) (f := fun i _ s => mark_used s (start+i)) (s := s)
    (fun i t => t.used_frame_count = s.used_frame_count+BitVec.ofNat 32 i ∧
      ∀ g, start+i ≤ g → g < start+n → is_used t g = false) ⟨by simp,fun g low high => free g (by omega) high⟩ ?_
  · exact rounds.1
  · rintro i inside t ⟨count,rest⟩
    refine ⟨?_,?_⟩
    · rw [mark_used_count (rest (start+i) (le_refl _) (by omega)),count,BitVec.ofNat_add,BitVec.add_assoc]
    · intro g low high
      simp [rest g (by omega) high,show g ≠ start+i by omega]

/-- A single frame is a run of one. -/
theorem pfa_alloc_one (s : Frames) : pfa_alloc s = pfa_alloc_contiguous s 1#32 := by
  have single : ∀ {f}, is_used s f = false ↔ FreeRun s f 1 := by
    intro f
    constructor
    · intro free g low high
      rwa [show g = f by omega]
    · exact fun run => run f (le_refl _) (by omega)
  have used : ∀ {f}, ¬ FreeRun s f 1 → is_used s f = true := by
    intro f noRun
    by_contra free
    exact noRun (single.mp (by simpa using free))
  rcases pfa_alloc_contiguous_cases s 1#32 with ⟨failed,zero | none⟩ | ⟨r,_,fits,free,least,found⟩
  · cases zero
  · rcases pfa_alloc_cases s with ⟨same,_⟩ | ⟨f,inside,free,_,_⟩
    · rw [failed,same]
    · exact absurd (single.mp free) (none f inside)
  · rw [found,pfa_alloc_eq fits (single.mpr free) (fun g below => used (least g below))]
    simp

theorem pfa_alloc_contiguous_eq {s : Frames} {n : Word} {r : Nat} (positive : n ≠ 0#32) (first : FirstFit s n.toNat r) :
    pfa_alloc_contiguous s n = (pageAddr r,n.toNat.fold (fun i _ s => mark_used s (r+i)) s) := by
  obtain ⟨⟨fits,free⟩,lowest⟩ := first
  rcases pfa_alloc_contiguous_cases s n with ⟨_,isZero | none⟩ | ⟨t,_,fitsT,freeT,least,found⟩
  · exact absurd isZero positive
  · exact absurd free (none r fits)
  · have notAfter : t ≤ r := by
      by_contra after
      exact least r (Nat.lt_of_not_le after) free
    rw [found,Nat.le_antisymm notAfter (lowest ⟨fitsT,freeT⟩)]

/-- `pfa_alloc_contiguous` is first fit, marks exactly the run it returns, and counts
    its frames; 0 means that there is no such run. -/
theorem pfa_alloc_contiguous_first_fit {s : Frames} (zero : is_used s 0 = true) {n : Word} (positive : n ≠ 0#32) :
    (∀ r, FirstFit s n.toNat r →
        (pfa_alloc_contiguous s n).1.toNat = 4096*r ∧
        (∀ f, is_used (pfa_alloc_contiguous s n).2 f = true ↔ (r ≤ f ∧ f < r+n.toNat) ∨ is_used s f = true) ∧
        pfa_used_frames (pfa_alloc_contiguous s n).2 = pfa_used_frames s+n) ∧
      ((pfa_alloc_contiguous s n).1 = 0#32 ↔ ¬ ∃ r, r+n.toNat ≤ MAX_FRAMES ∧ FreeRun s r n.toNat) ∧
      ((pfa_alloc_contiguous s n).1 = 0#32 → (pfa_alloc_contiguous s n).2 = s) ∧
      pfa_alloc s = pfa_alloc_contiguous s 1#32 := by
  refine ⟨?_,?_,?_,pfa_alloc_one s⟩
  · intro r first
    have ⟨⟨fits,free⟩,_⟩ := first
    have some_frame : 0 < n.toNat := Nat.pos_of_ne_zero (fun none => positive (BitVec.eq_of_toNat_eq none))
    rw [pfa_alloc_contiguous_eq positive first]
    refine ⟨?_,?_,?_⟩
    · rw [pageAddr_toNat (by simp only [MAX_FRAMES] at fits; omega),Nat.mul_comm]
    · intro f
      simp [is_used_mark_run]
    · simp only [pfa_used_frames]
      rw [mark_run_count free,BitVec.ofNat_toNat,BitVec.setWidth_eq]
  · rcases pfa_alloc_contiguous_cases s n with ⟨failed,isZero | none⟩ | ⟨r,some_frame,fits,free,_,found⟩
    · exact absurd isZero positive
    · rw [failed]
      refine ⟨fun _ => ?_,fun _ => rfl⟩
      rintro ⟨r,fits,free⟩
      exact none r fits free
    · rw [found]
      have nonzero : pageAddr r ≠ 0#32 := pfa_alloc_nonzero zero (by omega) (free r (le_refl _) (by omega))
      exact ⟨fun isZero => absurd isZero nonzero,fun noRun => absurd ⟨r,fits,free⟩ noRun⟩
  · rcases pfa_alloc_contiguous_cases s n with ⟨failed,_⟩ | ⟨r,some_frame,fits,free,_,found⟩
    · rw [failed]
      exact fun _ => rfl
    · rw [found]
      have nonzero : pageAddr r ≠ 0#32 := pfa_alloc_nonzero zero (by omega) (free r (le_refl _) (by omega))
      exact fun isZero => absurd isZero nonzero

/-- A bitmap with three free frames. -/
def threeFree : Frames := mark_free (mark_free (mark_free all_used 5) 6) 7

theorem threeFree_used (f : Nat) : is_used threeFree f = true ↔ ¬ (5 ≤ f ∧ f < 8) := by
  simp only [threeFree,is_used_mark_free,is_used_all_used,Bool.and_true,Bool.and_eq_true,Bool.not_eq_true',
    decide_eq_false_iff_not]
  omega

theorem threeFree_run : FreeRun threeFree 5 3 := by
  intro g low high
  by_contra used
  exact (threeFree_used g).mp (by simpa using used) ⟨low,high⟩

theorem threeFree_fit : FirstFit threeFree 2 5 := by
  refine ⟨⟨by decide,fun g low high => threeFree_run g low (by omega)⟩,?_⟩
  rintro t ⟨_,run⟩
  by_contra below
  have used := (threeFree_used t).mpr (by omega)
  rw [run t (le_refl _) (by omega)] at used
  cases used

theorem pfa_alloc_contiguous_first_fit_two : FirstFit threeFree 2 5 ∧
    (pfa_alloc_contiguous threeFree 2#32).1.toNat = 0x5000 ∧ is_used (pfa_alloc_contiguous threeFree 2#32).2 6 = true := by
  obtain ⟨found,_⟩ := pfa_alloc_contiguous_first_fit (s := threeFree) ((threeFree_used 0).mpr (by omega)) (n := 2#32)
    (by decide)
  obtain ⟨addr,marks,_⟩ := found 5 threeFree_fit
  exact ⟨threeFree_fit,addr,(marks 6).mpr (.inl ⟨by decide,by decide⟩)⟩

/-! ### Public operations -/

/-- A call of a public operation. -/
inductive Call
  | alloc
  | allocContiguous (n : Word)
  | free (a : Word)
  | freeContiguous (a n : Word)
  | reserve (a b : Word)
deriving DecidableEq

def Call.run (s : Frames) : Call → Frames
  | .alloc => (pfa_alloc s).2
  | .allocContiguous n => (pfa_alloc_contiguous s n).2
  | .free a => pfa_free s a
  | .freeContiguous a n => pfa_free_contiguous s a n
  | .reserve a b => pfa_reserve s a b

theorem flips_call (s : Frames) (call : Call) : Flips s (call.run s) := by
  cases call with
  | alloc => exact flips_alloc s
  | allocContiguous n => exact flips_allocContiguous s n
  | free a => exact flips_free s a
  | freeContiguous a n => exact flips_freeContiguous s a n
  | reserve a b => exact flips_region_used s a b

theorem flips_calls (calls : List Call) (s : Frames) : Flips s (calls.foldl Call.run s) := by
  induction calls generalizing s with
  | nil => exact .refl
  | cons call rest ih => exact (flips_call s call).trans (ih _)

/-! ### Giving everything back -/

/-- What a client asks for. -/
inductive Request
  | single
  | contiguous (n : Word)

def Request.count : Request → Word
  | .single => 1#32
  | .contiguous n => n

def Request.call (s : Frames) : Request → Word × Frames
  | .single => pfa_alloc s
  | .contiguous n => pfa_alloc_contiguous s n

/-- One request after another, as long as all of them succeed. -/
def alloc_all : Frames → List Request → Option (List Allocation × Frames)
  | s, [] => some ([],s)
  | s, r :: rest =>
    if (r.call s).1 = 0#32 then none
    else (alloc_all (r.call s).2 rest).map fun more => (⟨(r.call s).1,r.count⟩ :: more.1,more.2)

/-- The calls that give an allocation back: one for all frames, or one for each. -/
def releases (x : Allocation) : Bool → List Call
  | true => [.freeContiguous x.addr x.count]
  | false => (List.range x.count.toNat).map fun i => .free (x.addr+BitVec.ofNat 32 (i*PAGE_SIZE))

/-- The frames that a call frees. -/
def Call.Frees : Call → Nat → Prop
  | .free a, f => f = a.toNat/4096
  | .freeContiguous a n, f => (Allocation.mk a n).Holds f
  | _, _ => False

/-- What a successful request says about the allocation `x`. -/
structure Taken (s t : Frames) (x : Allocation) : Prop where
  aligned : x.addr.toNat % 4096 = 0
  fits : x.addr.toNat/4096+x.count.toNat ≤ MAX_FRAMES
  wasFree : ∀ f, x.Holds f → is_used s f = false
  marked : ∀ f, is_used t f = true ↔ x.Holds f ∨ is_used s f = true

theorem request_taken {s : Frames} {r : Request} (got : (r.call s).1 ≠ 0#32) :
    Taken s (r.call s).2 ⟨(r.call s).1,r.count⟩ := by
  have asRun : r.call s = pfa_alloc_contiguous s r.count := by
    cases r with
    | single => exact pfa_alloc_one s
    | contiguous n => rfl
  rw [asRun] at got ⊢
  rcases pfa_alloc_contiguous_cases s r.count with ⟨failed,_⟩ | ⟨start,positive,fits,free,_,found⟩
  · rw [failed] at got
    exact absurd rfl got
  · rw [found]
    have addr : (pageAddr start).toNat = start*4096 := pageAddr_toNat (by simp only [MAX_FRAMES] at fits; omega)
    have first : (pageAddr start).toNat/4096 = start := by omega
    refine ⟨?_,?_,?_,?_⟩
    · rw [addr]
      omega
    · rw [first]
      exact fits
    · rintro f ⟨low,high⟩
      rw [first] at low high
      exact free f low high
    · intro f
      simp [is_used_mark_run,Allocation.Holds,first]

/-- The results of several requests: together they are what has been marked. -/
theorem alloc_all_taken {requests : List Request} {s t : Frames} {all : List Allocation}
    (got : alloc_all s requests = some (all,t)) :
    Flips s t ∧ (∀ x ∈ all, x.addr.toNat % 4096 = 0 ∧ x.addr.toNat/4096+x.count.toNat ≤ MAX_FRAMES ∧
        ∀ f, x.Holds f → is_used s f = false) ∧
      ∀ f, is_used t f = true ↔ (∃ x ∈ all, x.Holds f) ∨ is_used s f = true := by
  induction requests generalizing s all with
  | nil =>
    cases got
    exact ⟨.refl,by simp,by simp⟩
  | cons r rest ih =>
    rw [alloc_all] at got
    split at got
    · cases got
    · rename_i nonzero
      obtain ⟨⟨later,u⟩,gotLater,pair⟩ := Option.map_eq_some_iff.mp got
      cases pair
      obtain ⟨flips,each,marked⟩ := ih gotLater
      have taken := request_taken nonzero
      have step : Flips s (r.call s).2 := by
        cases r with
        | single => exact flips_alloc s
        | contiguous n => exact flips_allocContiguous s n
      refine ⟨step.trans flips,?_,?_⟩
      · intro x member
        rcases List.mem_cons.mp member with rfl | old
        · exact ⟨taken.aligned,taken.fits,taken.wasFree⟩
        · obtain ⟨aligned,fits,free⟩ := each x old
          refine ⟨aligned,fits,fun f holds => ?_⟩
          by_contra used
          have still := (taken.marked f).mpr (.inr (by simpa using used))
          rw [free f holds] at still
          cases still
      · intro f
        rw [marked f,taken.marked f]
        simp only [List.mem_cons,exists_eq_or_imp]
        rw [or_left_comm,or_assoc]

/-- Calls that free frames may come in any order. -/
theorem calls_used {calls : List Call}
    (each : ∀ c ∈ calls, ∀ s f, is_used (c.run s) f = true ↔ is_used s f = true ∧ ¬ c.Frees f) (s : Frames) (f : Nat) :
    is_used (calls.foldl Call.run s) f = true ↔ is_used s f = true ∧ ¬ ∃ c ∈ calls, c.Frees f := by
  induction calls generalizing s with
  | nil => simp
  | cons c rest ih =>
    rw [List.foldl_cons,ih (fun d member => each d (List.mem_cons_of_mem c member)),each c List.mem_cons_self]
    simp only [List.mem_cons,exists_eq_or_imp]
    rw [not_or,and_assoc]

theorem releases_used {x : Allocation} (fits : x.addr.toNat/4096+x.count.toNat ≤ MAX_FRAMES) {whole : Bool} {c : Call}
    (member : c ∈ releases x whole) (s : Frames) (f : Nat) :
    is_used (c.run s) f = true ↔ is_used s f = true ∧ ¬ c.Frees f := by
  cases whole with
  | true =>
    rw [releases,List.mem_singleton] at member
    subst member
    simp only [Call.run,is_used_pfa_free_contiguous _ _ _ _ fits,Call.Frees,Allocation.Holds,Bool.and_eq_true,
      Bool.not_eq_true',decide_eq_false_iff_not]
    exact and_comm
  | false =>
    obtain ⟨i,_,rfl⟩ := List.mem_map.mp member
    simp [Call.run,Call.Frees,and_comm]

/-- Together the calls that give an allocation back free its frames. -/
theorem releases_frees {x : Allocation} (aligned : x.addr.toNat % 4096 = 0)
    (fits : x.addr.toNat/4096+x.count.toNat ≤ MAX_FRAMES) (whole : Bool) (f : Nat) :
    (∃ c ∈ releases x whole, c.Frees f) ↔ x.Holds f := by
  simp only [MAX_FRAMES] at fits
  cases whole with
  | true => simp [releases,Call.Frees]
  | false =>
    have frame : ∀ i < x.count.toNat, (x.addr+BitVec.ofNat 32 (i*PAGE_SIZE)).toNat/4096 = x.addr.toNat/4096+i := by
      intro i inside
      simp only [PAGE_SIZE,BitVec.toNat_add,BitVec.toNat_ofNat]
      omega
    constructor
    · rintro ⟨c,member,frees⟩
      obtain ⟨i,inside,rfl⟩ := List.mem_map.mp member
      have range := List.mem_range.mp inside
      simp only [Call.Frees,frame i range] at frees
      exact ⟨by omega,by omega⟩
    · rintro ⟨low,high⟩
      have range : f-x.addr.toNat/4096 < x.count.toNat := by omega
      refine ⟨_,List.mem_map_of_mem (List.mem_range.mpr range),?_⟩
      simp only [Call.Frees,frame _ range]
      omega

/-- When the results of successful requests are given back in any order, each by one
    call or frame by frame, the allocator is what it was before. -/
theorem freeing_undoes_allocating {s t : Frames} {requests : List Request} {all : List Allocation}
    (got : alloc_all s requests = some (all,t)) (whole : Allocation → Bool) {calls : List Call}
    (order : calls.Perm (all.flatMap fun x => releases x (whole x))) : calls.foldl Call.run t = s := by
  obtain ⟨flips,each,marked⟩ := alloc_all_taken got
  have belongs : ∀ {c}, c ∈ calls ↔ ∃ x ∈ all, c ∈ releases x (whole x) := by
    intro c
    rw [order.mem_iff,List.mem_flatMap]
  have frees : ∀ c ∈ calls, ∀ s f, is_used (c.run s) f = true ↔ is_used s f = true ∧ ¬ c.Frees f := by
    intro c member
    obtain ⟨x,inAll,inReleases⟩ := belongs.mp member
    exact releases_used (each x inAll).2.1 inReleases
  have freed : ∀ f, (∃ c ∈ calls, c.Frees f) ↔ ∃ x ∈ all, x.Holds f := by
    intro f
    constructor
    · rintro ⟨c,member,isFreed⟩
      obtain ⟨x,inAll,inReleases⟩ := belongs.mp member
      obtain ⟨aligned,fits,_⟩ := each x inAll
      exact ⟨x,inAll,(releases_frees aligned fits _ f).mp ⟨c,inReleases,isFreed⟩⟩
    · rintro ⟨x,inAll,holds⟩
      obtain ⟨aligned,fits,_⟩ := each x inAll
      obtain ⟨c,inReleases,isFreed⟩ := (releases_frees aligned fits (whole x) f).mpr holds
      exact ⟨c,belongs.mpr ⟨x,inAll,inReleases⟩,isFreed⟩
  refine flips_restored (flips.trans (flips_calls calls t)) (fun f => ?_)
  rw [Bool.eq_iff_iff,calls_used frees,freed,marked]
  constructor
  · rintro ⟨held | used,notHeld⟩
    · exact absurd held notHeld
    · exact used
  · intro used
    refine ⟨.inr used,?_⟩
    rintro ⟨x,inAll,holds⟩
    rw [(each x inAll).2.2 f holds] at used
    cases used

/-- Two frames and then one; they are given back frame by frame, the last one first. -/
theorem freeing_undoes_allocating_three : ∃ t,
    alloc_all threeFree [.contiguous 2#32,.single] = some ([⟨0x5000#32,2#32⟩,⟨0x7000#32,1#32⟩],t) ∧
    [Call.free 0x7000#32,.free 0x6000#32,.free 0x5000#32].foldl Call.run t = threeFree := by
  have first := pfa_alloc_contiguous_eq (n := 2#32) (by decide) threeFree_fit
  have second := pfa_alloc_eq (s := (2#32 : Word).toNat.fold (fun i _ s => mark_used s (5+i)) threeFree) (f := 7) (by decide)
    (by rw [is_used_mark_run]; simp [threeFree_run 7 (by decide) (by decide)]) (by
      intro g below
      rw [is_used_mark_run,Bool.or_eq_true,decide_eq_true_eq,threeFree_used]
      simp only [BitVec.toNat_ofNat]
      omega)
  obtain ⟨t,got⟩ : ∃ t, alloc_all threeFree [.contiguous 2#32,.single] =
      some ([⟨0x5000#32,2#32⟩,⟨0x7000#32,1#32⟩],t) := by
    simp only [alloc_all,Request.call,Request.count,first,second]
    rw [if_neg (by decide),if_neg (by decide)]
    exact ⟨_,rfl⟩
  exact ⟨t,got,freeing_undoes_allocating got (fun _ => false) (by decide)⟩

/-! ### The counter over whole runs -/

/-- The bits of the bitmap. -/
def bits : Finset (Nat × Nat) := Finset.range BITMAP_WORDS ×ˢ Finset.range BITMAP_WORD_BITS
def set_bits (s : Frames) : Nat := (bits.filter (fun p => (s.frame_bitmap p.1).getLsbD p.2 = true)).card
def clear_bits (s : Frames) : Nat := (bits.filter (fun p => (s.frame_bitmap p.1).getLsbD p.2 = false)).card

theorem mem_bits (p : Nat × Nat) : p ∈ bits ↔ p.1 < BITMAP_WORDS ∧ p.2 < BITMAP_WORD_BITS := by
  rw [bits,Finset.mem_product,Finset.mem_range,Finset.mem_range]

-- The linter would compute the set of all bits.
set_option linter.constructorNameAsVariable false in
/-- Every frame has its bit. -/
theorem bits_card (s : Frames) (v : Bool) :
    (bits.filter (fun p => (s.frame_bitmap p.1).getLsbD p.2 = v)).card =
      ((Finset.range MAX_FRAMES).filter (fun f => is_used s f = v)).card := by
  refine Finset.card_bij' (fun p _ => p.1*32+p.2) (fun f _ => (f/32,f%32)) ?_ ?_ ?_ ?_
  · intro p member
    rw [Finset.mem_filter,mem_bits] at member
    simp only [BITMAP_WORDS,BITMAP_WORD_BITS,MAX_FRAMES] at member
    rw [Finset.mem_filter,Finset.mem_range,is_used_bit,show (p.1*32+p.2)/32 = p.1 by omega,
      show (p.1*32+p.2)%32 = p.2 by omega]
    exact ⟨by simp only [MAX_FRAMES]; omega,member.2⟩
  · intro f member
    rw [Finset.mem_filter,Finset.mem_range,is_used_bit] at member
    rw [Finset.mem_filter,mem_bits]
    simp only [BITMAP_WORDS,BITMAP_WORD_BITS,MAX_FRAMES] at member ⊢
    exact ⟨by omega,member.2⟩
  · intro p member
    rw [Finset.mem_filter,mem_bits] at member
    simp only [BITMAP_WORDS,BITMAP_WORD_BITS,MAX_FRAMES] at member
    exact Prod.ext (by dsimp only; omega) (by dsimp only; omega)
  · intro f _
    dsimp only
    omega

/-- The counter is the number of used frames. -/
structure Counted (s : Frames) : Prop where
  exact_count : drift s = 0#32
  total : s.total_frame_count = BitVec.ofNat 32 MAX_FRAMES

theorem flips_counted {s t : Frames} (flips : Flips s t) (counted : Counted s) : Counted t := by
  obtain ⟨count,total⟩ := flips_drift flips
  exact ⟨count.trans counted.exact_count,total.trans counted.total⟩

theorem counted_used {s : Frames} (counted : Counted s) : s.used_frame_count.toNat = usedCount s := by
  have bound := usedCount_le s
  have count := counted.exact_count
  simp only [MAX_FRAMES] at bound
  rw [drift,BitVec.sub_eq_iff_eq_add,BitVec.zero_add] at count
  rw [count,BitVec.toNat_ofNat]
  omega

theorem counted_all_used : Counted all_used where
  exact_count := by
    have full : usedCount all_used = MAX_FRAMES := (full_iff _).mp (fun f _ => is_used_all_used f)
    rw [drift,full,all_used]
    exact BitVec.sub_self _
  total := rfl

theorem flips_mmap_walk {m : Memory} {mmap_end : Word} {fuel : Nat} {curr : Word} {s t : Frames}
    (ended : mmap_walk m mmap_end fuel curr s = some t) : Flips s t := by
  induction fuel generalizing curr s with
  | zero => cases ended
  | succ fuel ih =>
    rw [mmap_walk] at ended
    split at ended
    · refine Relation.ReflTransGen.trans ?_ (ih ended)
      rw [free_entry]
      split
      · split
        · exact flips_region_free s _ _
        · exact .refl
      · exact .refl
    · cases ended
      exact .refl

theorem flips_reserve_boot (s : Frames) (mbi : MultibootInfo) (info start stop : Word) :
    Flips s (reserve_boot s mbi info start stop) := by
  have fixed := ((flips_region_used s 0#32 (BitVec.ofNat 32 PAGE_SIZE)).trans (flips_region_used _ start stop)).trans
    (flips_region_used _ info (info+sizeof_multiboot_info))
  simp only [reserve_boot]
  split
  · exact fixed.trans (flips_region_used _ _ _)
  · exact fixed

theorem flips_init {b : Boot} {fuel : Nat} {s : Frames} (ended : b.init fuel = some s) : Flips all_used s := by
  simp only [Boot.init,pfa_init,Option.map_eq_some_iff] at ended
  obtain ⟨t,freed,rfl⟩ := ended
  refine Relation.ReflTransGen.trans ?_ (flips_reserve_boot t _ _ _ _)
  split at freed
  · exact flips_mmap_walk freed
  · split at freed
    · cases freed
      exact flips_region_free _ _ _
    · cases freed
      exact .refl

/-- A flip that moves the counter by one as a number, without wrapping around. -/
def MovesByOne (s t : Frames) : Prop :=
  Flip s t ∧ ((pfa_used_frames t).toNat = (pfa_used_frames s).toNat+1 ∨
    (pfa_used_frames s).toNat = (pfa_used_frames t).toNat+1)

theorem flip_moves {s t : Frames} (counted : Counted s) (flip : Flip s t) : MovesByOne s t := by
  have after := counted_used (flips_counted (.single flip) counted)
  have before := counted_used counted
  refine ⟨flip,?_⟩
  simp only [pfa_used_frames,before,after]
  cases flip with
  | use inside free => exact .inl (usedCount_mark_used inside free)
  | release inside used => exact .inr (usedCount_mark_free inside used)

theorem flips_move {s t : Frames} (counted : Counted s) (flips : Flips s t) : Relation.ReflTransGen MovesByOne s t := by
  induction flips with
  | refl => exact .refl
  | tail before flip ih => exact ih.tail (flip_moves (flips_counted before counted) flip)

/-- After `pfa_init` and any calls with any arguments the counters tell the number of
    set and of clear bits, and no step on the way makes the counter wrap around. -/
theorem frame_accounting {b : Boot} {fuel : Nat} {s : Frames} (ended : b.init fuel = some s) (calls : List Call) :
    (pfa_used_frames (calls.foldl Call.run s)).toNat = set_bits (calls.foldl Call.run s) ∧
      (pfa_free_frames (calls.foldl Call.run s)).toNat = clear_bits (calls.foldl Call.run s) ∧
      Relation.ReflTransGen MovesByOne all_used (calls.foldl Call.run s) := by
  have flips := (flips_init ended).trans (flips_calls calls s)
  generalize calls.foldl Call.run s = t at flips
  have counted := flips_counted flips counted_all_used
  have used := counted_used counted
  have bound := usedCount_le t
  simp only [MAX_FRAMES] at bound
  refine ⟨?_,?_,flips_move counted_all_used flips⟩
  · rw [set_bits,bits_card]
    exact used
  · rw [clear_bits,bits_card,← freeCount_eq,freeCount,pfa_free_frames,counted.total,BitVec.toNat_sub,used,
      BitVec.toNat_ofNat]
    simp only [MAX_FRAMES]
    omega

theorem frame_accounting_pc : ∃ s, pc.init 3 = some s ∧
    (pfa_used_frames ([Call.alloc,.free 0x1000#32,.free 0x1000#32,.freeContiguous 0xFFFFF000#32 0xFFFFFFFF#32].foldl
      Call.run s)).toNat =
      set_bits ([Call.alloc,.free 0x1000#32,.free 0x1000#32,.freeContiguous 0xFFFFF000#32 0xFFFFFFFF#32].foldl
        Call.run s) := by
  obtain ⟨s,ended⟩ := pc_init
  exact ⟨s,ended,(frame_accounting ended _).1⟩

end SoKernel.FrameAccounts
