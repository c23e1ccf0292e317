import SoKernel.PfaInit
import Mathlib.Data.List.Perm.Basic

/-!
Exclusive ownership of page frames. A ledger keeps, beside the allocator, the
allocations that are live and the frames that were reserved. Clients may call
the public operations in any order, as long as they free only what is live and
reserve nothing that is live; then no frame ever has two owners.
-/
namespace SoKernel.FrameOwnership
open SoKernel.Words SoKernel.Pages SoKernel.Pfa SoKernel.PfaInit
set_option linter.unusedSimpArgs false

/-- The address and the number of frames of an allocation. -/
structure Allocation where
  addr : Word
  count : Word
deriving DecidableEq

/-- The frames of an allocation. -/
def Allocation.Holds (x : Allocation) (f : Nat) : Prop :=
  x.addr.toNat/4096 ≤ f ∧ f < x.addr.toNat/4096+x.count.toNat

structure Ledger where
  frames : Frames
  live : List Allocation
  reserved : Nat → Prop

/-- The ledger after an allocation returned: 0 means that nothing was handed out. -/
def Ledger.take (l : Ledger) (count : Word) (result : Word × Frames) : Ledger :=
  { l with
    frames := result.2
    live := if result.1 = 0#32 then l.live else ⟨result.1,count⟩ :: l.live }

/-- One call of a public operation by a client that keeps the rules. -/
inductive Step : Ledger → Ledger → Prop
  | alloc (l : Ledger) : Step l (l.take 1#32 (pfa_alloc l.frames))
  | allocContiguous (l : Ledger) (n : Word) : Step l (l.take n (pfa_alloc_contiguous l.frames n))
  | reserve (l : Ledger) (a b : Word) (unowned : ∀ x ∈ l.live, ∀ f, UsedRegion a b f → ¬ x.Holds f) :
      Step l { l with
        frames := pfa_reserve l.frames a b
        reserved := fun f => l.reserved f ∨ UsedRegion a b f }
  | free (l : Ledger) (x : Allocation) (isLive : x ∈ l.live) (single : x.count = 1#32) :
      Step l { l with frames := pfa_free l.frames x.addr, live := l.live.erase x }
  | freeContiguous (l : Ledger) (x : Allocation) (isLive : x ∈ l.live) :
      Step l { l with frames := pfa_free_contiguous l.frames x.addr x.count, live := l.live.erase x }

def Apart (x y : Allocation) : Prop := ∀ f, ¬ (x.Holds f ∧ y.Holds f)

theorem apart_symm {x y : Allocation} (apart : Apart x y) : Apart y x := fun f both => apart f both.symm

/-- What ties the bitmap to the ledger. -/
structure Exclusive (l : Ledger) : Prop where
  zeroReserved : l.reserved 0
  reservedUsed : ∀ f, l.reserved f → is_used l.frames f = true
  liveUsed : ∀ x ∈ l.live, ∀ f, x.Holds f → is_used l.frames f = true
  bounded : ∀ x ∈ l.live, x.addr.toNat/4096+x.count.toNat ≤ MAX_FRAMES
  disjoint : l.live.Pairwise Apart
  unreserved : ∀ x ∈ l.live, ∀ f, x.Holds f → ¬ l.reserved f

/-- Handing out frames that were free keeps ownership exclusive. -/
theorem exclusive_take {l : Ledger} (inv : Exclusive l) {count : Word} {result : Word × Frames}
    (grows : ∀ f, is_used l.frames f = true → is_used result.2 f = true)
    (fresh : result.1 ≠ 0#32 → ∀ f, (Allocation.mk result.1 count).Holds f →
      is_used l.frames f = false ∧ is_used result.2 f = true)
    (fits : result.1 ≠ 0#32 → result.1.toNat/4096+count.toNat ≤ MAX_FRAMES) :
    Exclusive (l.take count result) := by
  by_cases none : result.1 = 0#32
  · simp only [Ledger.take,none,if_true]
    exact ⟨inv.zeroReserved,fun f h => grows f (inv.reservedUsed f h),
      fun x member f h => grows f (inv.liveUsed x member f h),inv.bounded,inv.disjoint,inv.unreserved⟩
  · have fresh := fresh none
    simp only [Ledger.take,none,if_false]
    refine ⟨inv.zeroReserved,fun f h => grows f (inv.reservedUsed f h),?_,?_,?_,?_⟩
    · intro x member f holds
      rcases List.mem_cons.mp member with rfl | old
      · exact (fresh f holds).2
      · exact grows f (inv.liveUsed x old f holds)
    · intro x member
      rcases List.mem_cons.mp member with rfl | old
      · exact fits none
      · exact inv.bounded x old
    · refine List.pairwise_cons.mpr ⟨?_,inv.disjoint⟩
      rintro y old f ⟨new,holds⟩
      have used := inv.liveUsed y old f holds
      rw [(fresh f new).1] at used
      cases used
    · intro x member f holds reserved
      rcases List.mem_cons.mp member with rfl | old
      · have used := inv.reservedUsed f reserved
        rw [(fresh f holds).1] at used
        cases used
      · exact inv.unreserved x old f holds reserved

/-- Giving back exactly the frames of a live allocation keeps ownership exclusive. -/
theorem exclusive_erase {l : Ledger} (inv : Exclusive l) {x : Allocation} (isLive : x ∈ l.live) {frames : Frames}
    (keeps : ∀ f, ¬ x.Holds f → is_used frames f = is_used l.frames f) :
    Exclusive { l with frames := frames, live := l.live.erase x } := by
  have split : l.live.Perm (x :: l.live.erase x) := List.perm_cons_erase isLive
  have disjoint : (x :: l.live.erase x).Pairwise Apart :=
    (split.pairwise_iff (fun h => apart_symm h)).mp inv.disjoint
  obtain ⟨others,rest⟩ := List.pairwise_cons.mp disjoint
  have old : ∀ y ∈ l.live.erase x, y ∈ l.live := fun y member => List.mem_of_mem_erase member
  refine ⟨inv.zeroReserved,?_,?_,fun y member => inv.bounded y (old y member),rest,
    fun y member => inv.unreserved y (old y member)⟩
  · intro f reserved
    rw [keeps f (fun holds => inv.unreserved x isLive f holds reserved)]
    exact inv.reservedUsed f reserved
  · intro y member f holds
    rw [keeps f (fun both => others y member f ⟨both,holds⟩)]
    exact inv.liveUsed y (old y member) f holds

theorem exclusive_alloc {l : Ledger} (inv : Exclusive l) : Exclusive (l.take 1#32 (pfa_alloc l.frames)) := by
  rcases pfa_alloc_cases l.frames with ⟨failed,_⟩ | ⟨f,inside,free,_,found⟩
  · rw [failed]
    exact exclusive_take inv (fun _ used => used) (fun h => absurd rfl h) (fun h => absurd rfl h)
  · rw [found]
    have addr := pageAddr_toNat inside
    have held : ∀ g, (Allocation.mk (pageAddr f) 1#32).Holds g → g = f := by
      intro g holds
      simp only [Allocation.Holds,addr] at holds
      simp at holds
      omega
    refine exclusive_take inv ?_ ?_ ?_
    · intro g used
      simp [used]
    · intro _ g holds
      rw [held g holds]
      exact ⟨free,by simp⟩
    · intro _
      simp only [addr,MAX_FRAMES] at *
      simp
      omega

theorem exclusive_allocContiguous {l : Ledger} (inv : Exclusive l) (n : Word) :
    Exclusive (l.take n (pfa_alloc_contiguous l.frames n)) := by
  rcases pfa_alloc_contiguous_cases l.frames n with ⟨failed,_⟩ | ⟨r,positive,fits,free,_,found⟩
  · rw [failed]
    exact exclusive_take inv (fun _ used => used) (fun h => absurd rfl h) (fun h => absurd rfl h)
  · rw [found]
    have addr := pageAddr_toNat (n := r) (by simp only [MAX_FRAMES] at fits; omega)
    refine exclusive_take inv ?_ ?_ ?_
    · intro g used
      simp [is_used_mark_run,used]
    · intro _ g holds
      simp only [Allocation.Holds,addr,Nat.mul_div_cancel _ (show 0 < 4096 by decide)] at holds
      exact ⟨free g holds.1 holds.2,by simp [is_used_mark_run,holds]⟩
    · intro _
      simpa only [addr,Nat.mul_div_cancel _ (show 0 < 4096 by decide)] using fits

theorem step_exclusive {l l' : Ledger} (inv : Exclusive l) (step : Step l l') : Exclusive l' := by
  cases step with
  | alloc => exact exclusive_alloc inv
  | allocContiguous n => exact exclusive_allocContiguous inv n
  | reserve a b unowned =>
    refine ⟨.inl inv.zeroReserved,?_,?_,inv.bounded,inv.disjoint,?_⟩
    · rintro f (old | new)
      · simp [pfa_reserve,inv.reservedUsed f old]
      · simp [pfa_reserve,new]
    · intro x member f holds
      simp [pfa_reserve,inv.liveUsed x member f holds]
    · rintro x member f holds (old | new)
      · exact inv.unreserved x member f holds old
      · exact unowned x member f new holds
  | free x isLive single =>
    refine exclusive_erase inv isLive ?_
    intro f outside
    have other : f ≠ x.addr.toNat/4096 := by
      rintro rfl
      exact outside ⟨le_refl _,by simp [single]⟩
    simp [other]
  | freeContiguous x isLive =>
    refine exclusive_erase inv isLive ?_
    intro f outside
    have other : ¬ (x.addr.toNat/4096 ≤ f ∧ f < x.addr.toNat/4096+x.count.toNat) := outside
    simp [is_used_pfa_free_contiguous _ _ _ _ (inv.bounded x isLive),other]

/-- The ledger that `pfa_init` opens. -/
def opening (b : Boot) (s : Frames) : Ledger := { frames := s, live := [], reserved := b.Reserved }

theorem opening_exclusive {b : Boot} {fuel : Nat} {s : Frames} (ended : b.init fuel = some s) :
    Exclusive (opening b s) where
  zeroReserved := .inl (by decide)
  reservedUsed := by
    intro f reserved
    by_contra unused
    exact ((init_free_iff ended f).mp (by simpa [opening] using unused)).2 reserved
  liveUsed := by simp [opening]
  bounded := by simp [opening]
  disjoint := by simp [opening]
  unreserved := by simp [opening]

theorem run_exclusive {b : Boot} {fuel : Nat} {s : Frames} (ended : b.init fuel = some s) {l : Ledger}
    (run : Relation.ReflTransGen Step (opening b s) l) : Exclusive l := by
  induction run with
  | refl => exact opening_exclusive ended
  | tail _ step ih => exact step_exclusive ih step

/-- In every run after `pfa_init` the live allocations are disjoint, used, and
    contain neither frame 0 nor any reserved frame. -/
theorem live_allocations_exclusive {b : Boot} {fuel : Nat} {s : Frames} (ended : b.init fuel = some s) {l : Ledger}
    (run : Relation.ReflTransGen Step (opening b s) l) :
    l.live.Pairwise Apart ∧
      ∀ x ∈ l.live, ∀ f, x.Holds f → is_used l.frames f = true ∧ f ≠ 0 ∧ ¬ b.Reserved f ∧ ¬ l.reserved f := by
  have inv := run_exclusive ended run
  have remembers : ∀ {l}, Relation.ReflTransGen Step (opening b s) l → ∀ f, b.Reserved f → l.reserved f := by
    intro l run
    induction run with
    | refl => exact fun f reserved => reserved
    | tail _ step ih =>
      intro f reserved
      cases step with
      | reserve => exact .inl (ih f reserved)
      | _ => exact ih f reserved
  refine ⟨inv.disjoint,?_⟩
  intro x member f holds
  have unreserved := inv.unreserved x member f holds
  refine ⟨inv.liveUsed x member f holds,?_,fun h => unreserved (remembers run f h),unreserved⟩
  rintro rfl
  exact unreserved inv.zeroReserved

/-- A frame and then a run of three frames on the small PC. -/
theorem live_allocations_exclusive_pc : ∃ s l, pc.init 3 = some s ∧ Relation.ReflTransGen Step (opening pc s) l ∧
    l.live = [⟨0x2000#32,3#32⟩,⟨0x1000#32,1#32⟩] ∧ l.live.Pairwise Apart := by
  obtain ⟨s,ended⟩ := pc_init
  have zero := pc_zero_used ended
  have low : ∀ f, 0 < f → f < 16 → is_used s f = false := fun f => pc_low_free ended
  have first : pfa_alloc s = (0x1000#32,mark_used s 1) :=
    pfa_alloc_eq (by decide) (low 1 (by decide) (by decide)) (by
      intro g below
      rwa [show g = 0 by omega])
  have second : (pfa_alloc_contiguous (mark_used s 1) 3#32).1 = 0x2000#32 := by
    have run : FreeRun (mark_used s 1) 2 3 := by
      intro g from2 to5
      simp [low g (by omega) (by omega),show g ≠ 1 by omega]
    rcases pfa_alloc_contiguous_cases (mark_used s 1) 3#32 with ⟨_,zeroCount | none⟩ | ⟨r,_,_,free,least,found⟩
    · cases zeroCount
    · exact absurd run (none 2 (by decide))
    · have notLate : ¬ 2 < r := fun late => least 2 late run
      have notZero : r ≠ 0 := by
        rintro rfl
        have clash := free 0 (le_refl _) (by decide)
        simp [zero] at clash
      have notOne : r ≠ 1 := by
        rintro rfl
        have clash := free 1 (le_refl _) (by decide)
        simp at clash
      rw [found,show r = 2 by omega]
      rfl
  have run : Relation.ReflTransGen Step (opening pc s)
      (((opening pc s).take 1#32 (pfa_alloc s)).take 3#32 (pfa_alloc_contiguous (pfa_alloc s).2 3#32)) :=
    (Relation.ReflTransGen.single (Step.alloc (opening pc s))).tail (Step.allocContiguous _ 3#32)
  refine ⟨s,_,ended,run,?_,(live_allocations_exclusive ended run).1⟩
  simp [Ledger.take,first,second,opening]

end SoKernel.FrameOwnership
