import SoKernel.Ring

/-!
Free lists in address order. A region of memory is divided into blocks of
eight-byte units; some of them are free and linked into a ring with a sentinel of
no units, the others are in use. What follows is about the links and the sizes as
functions, wherever a program keeps them.
-/
namespace SoKernel.FreeList
open SoKernel.Words SoKernel.Ring
set_option linter.unusedSimpArgs false

/-! ### Blocks -/

/-- The bytes of a block. -/
def Covers (size : Word → Word) (a : Word) (x : Nat) : Prop := a.toNat ≤ x ∧ x < a.toNat+8*(size a).toNat

/-- The blocks `K` divide the region `P`. -/
structure Partition (size : Word → Word) (K : Finset Word) (P : Nat → Prop) : Prop where
  unit : ∀ a ∈ K, a.toNat % 8 = 0 ∧ 0 < (size a).toNat
  inside : ∀ a ∈ K, ∀ x, Covers size a x → P x
  covered : ∀ x, P x → ∃ a ∈ K, Covers size a x
  apart : ∀ a ∈ K, ∀ b ∈ K, ∀ x, Covers size a x → Covers size b x → a = b
  bounded : ∀ x, P x → 0 < x ∧ x < 2^32

section Partition
variable {size : Word → Word} {K : Finset Word} {P : Nat → Prop} {a b : Word}

theorem covers_start (part : Partition size K P) (inside : a ∈ K) : Covers size a a.toNat :=
  ⟨le_refl _,by have := (part.unit a inside).2; omega⟩

/-- No block reaches beyond the end of memory. -/
theorem block_end (part : Partition size K P) (inside : a ∈ K) : a.toNat+8*(size a).toNat ≤ 2^32 := by
  have positive := (part.unit a inside).2
  have last := part.bounded _ (part.inside a inside (a.toNat+8*(size a).toNat-1) ⟨by omega,by omega⟩)
  omega

/-- A block that starts inside another one is that one. -/
theorem start_inside (part : Partition size K P) (insideA : a ∈ K) (insideB : b ∈ K)
    (starts : Covers size a b.toNat) : b = a :=
  (part.apart a insideA b insideB _ starts (covers_start part insideB)).symm

theorem covers_update_self (v : Word) (x : Nat) :
    Covers (Function.update size a v) a x ↔ a.toNat ≤ x ∧ x < a.toNat+8*v.toNat := by
  simp [Covers]

theorem covers_update_ne (ne : b ≠ a) (v : Word) (x : Nat) :
    Covers (Function.update size a v) b x ↔ Covers size b x := by
  simp [Covers,ne]

theorem partition_congr {size' : Word → Word} (part : Partition size K P) (same : ∀ a ∈ K, size' a = size a) :
    Partition size' K P := by
  have covers : ∀ a ∈ K, ∀ x, Covers size' a x ↔ Covers size a x := by
    intro a inside x
    rw [Covers,Covers,same a inside]
  refine ⟨?_,?_,?_,?_,part.bounded⟩
  · intro a inside
    rw [same a inside]
    exact part.unit a inside
  · exact fun a inside x within => part.inside a inside x ((covers a inside x).mp within)
  · intro x within
    obtain ⟨a,inside,holds⟩ := part.covered x within
    exact ⟨a,inside,(covers a inside x).mpr holds⟩
  · exact fun a insideA b insideB x first second =>
      part.apart a insideA b insideB x ((covers a insideA x).mp first) ((covers b insideB x).mp second)

/-- Two blocks that follow each other become one. -/
theorem partition_merge (part : Partition size K P) (insideA : a ∈ K) (insideB : b ∈ K)
    (follows : a.toNat+8*(size a).toNat = b.toNat) :
    Partition (Function.update size a (size a+size b)) (K.erase b) P := by
  have positive := (part.unit a insideA).2
  have total : (size a+size b).toNat = (size a).toNat+(size b).toNat := by
    have := block_end part insideB
    rw [BitVec.toNat_add,Nat.mod_eq_of_lt (by omega)]
  have differ : a ≠ b := by
    rintro rfl
    omega
  have both : ∀ x, Covers (Function.update size a (size a+size b)) a x ↔ Covers size a x ∨ Covers size b x := by
    intro x
    rw [covers_update_self,total]
    simp only [Covers]
    omega
  refine ⟨?_,?_,?_,?_,part.bounded⟩
  · intro c inside
    obtain ⟨_,old⟩ := Finset.mem_erase.mp inside
    by_cases here : c = a
    · subst here
      rw [Function.update_self,total]
      exact ⟨(part.unit c old).1,by omega⟩
    · rw [Function.update_of_ne here]
      exact part.unit c old
  · intro c inside x within
    obtain ⟨_,old⟩ := Finset.mem_erase.mp inside
    by_cases here : c = a
    · subst here
      rcases (both x).mp within with first | second
      · exact part.inside c insideA x first
      · exact part.inside b insideB x second
    · exact part.inside c old x ((covers_update_ne here _ x).mp within)
  · intro x within
    obtain ⟨c,inside,holds⟩ := part.covered x within
    by_cases here : c = a ∨ c = b
    · refine ⟨a,Finset.mem_erase.mpr ⟨differ,insideA⟩,(both x).mpr ?_⟩
      rcases here with rfl | rfl
      · exact .inl holds
      · exact .inr holds
    · simp only [not_or] at here
      exact ⟨c,Finset.mem_erase.mpr ⟨here.2,inside⟩,(covers_update_ne here.1 _ x).mpr holds⟩
  · have old : ∀ c ∈ K.erase b, ∀ x, Covers (Function.update size a (size a+size b)) c x →
        ∃ d ∈ K, Covers size d x ∧ (d = c ∨ (c = a ∧ d = b)) := by
      intro c inside x within
      by_cases here : c = a
      · subst here
        rcases (both x).mp within with first | second
        · exact ⟨c,insideA,first,.inl rfl⟩
        · exact ⟨b,insideB,second,.inr ⟨rfl,rfl⟩⟩
      · exact ⟨c,Finset.mem_of_mem_erase inside,(covers_update_ne here _ x).mp within,.inl rfl⟩
    intro c insideC d insideD x first second
    obtain ⟨c',oldC,coversC,fromC⟩ := old c insideC x first
    obtain ⟨d',oldD,coversD,fromD⟩ := old d insideD x second
    have same := part.apart c' oldC d' oldD x coversC coversD
    have notC := (Finset.mem_erase.mp insideC).1
    have notD := (Finset.mem_erase.mp insideD).1
    rcases fromC with rfl | ⟨rfl,rfl⟩ <;> rcases fromD with rfl | ⟨rfl,rfl⟩
    · exact same
    · exact absurd same notC
    · exact absurd same.symm notD
    · rfl

/-- The upper units of a block become a block of their own. -/
theorem partition_split (part : Partition size K P) (insideA : a ∈ K) {u : Word} (positive : 0 < u.toNat)
    (smaller : u.toNat < (size a).toNat) (upper : b.toNat = a.toNat+8*((size a).toNat-u.toNat)) :
    Partition (Function.update (Function.update size a (size a-u)) b u) (insert b K) P := by
  have rest : (size a-u).toNat = (size a).toNat-u.toNat := by
    rw [BitVec.toNat_sub_of_le (BitVec.le_def.mpr (by omega))]
  have inA : Covers size a b.toNat := ⟨by omega,by omega⟩
  have differ : a ≠ b := by
    rintro rfl
    omega
  have fresh : b ∉ K := fun old => differ (start_inside part insideA old inA).symm
  have lower : ∀ x, Covers (Function.update (Function.update size a (size a-u)) b u) a x ↔
      a.toNat ≤ x ∧ x < b.toNat := by
    intro x
    rw [covers_update_ne differ,covers_update_self,rest,upper]
  have others : ∀ c, c ≠ a → c ≠ b → ∀ x,
      Covers (Function.update (Function.update size a (size a-u)) b u) c x ↔ Covers size c x := by
    intro c notA notB x
    rw [covers_update_ne notB,covers_update_ne notA]
  -- Every new block lies in the old block it comes from.
  have old : ∀ c ∈ insert b K, ∀ x, Covers (Function.update (Function.update size a (size a-u)) b u) c x →
      ∃ d ∈ K, Covers size d x ∧ ((d = a ∧ (c = a ∧ x < b.toNat ∨ c = b ∧ b.toNat ≤ x)) ∨ (d ≠ a ∧ c = d)) := by
    intro c inside x within
    by_cases atA : c = a
    · subst atA
      have range := (lower x).mp within
      exact ⟨c,insideA,⟨range.1,by omega⟩,.inl ⟨rfl,.inl ⟨rfl,range.2⟩⟩⟩
    · by_cases atB : c = b
      · subst atB
        have range := (covers_update_self u x).mp within
        exact ⟨a,insideA,⟨by omega,by omega⟩,.inl ⟨rfl,.inr ⟨rfl,range.1⟩⟩⟩
      · have inK := (Finset.mem_insert.mp inside).resolve_left atB
        exact ⟨c,inK,(others c atA atB x).mp within,.inr ⟨atA,rfl⟩⟩
  refine ⟨?_,?_,?_,?_,part.bounded⟩
  · intro c inside
    by_cases atB : c = b
    · subst atB
      have := (part.unit a insideA).1
      rw [Function.update_self]
      exact ⟨by omega,positive⟩
    · have inK := (Finset.mem_insert.mp inside).resolve_left atB
      rw [Function.update_of_ne atB]
      by_cases atA : c = a
      · subst atA
        rw [Function.update_self,rest]
        exact ⟨(part.unit c inK).1,by omega⟩
      · rw [Function.update_of_ne atA]
        exact part.unit c inK
  · intro c inside x within
    obtain ⟨d,inK,holds,_⟩ := old c inside x within
    exact part.inside d inK x holds
  · intro x within
    obtain ⟨c,inside,holds⟩ := part.covered x within
    by_cases atA : c = a
    · subst atA
      by_cases low : x < b.toNat
      · exact ⟨c,Finset.mem_insert_of_mem inside,(lower x).mpr ⟨holds.1,low⟩⟩
      · have := holds.2
        exact ⟨b,Finset.mem_insert_self b K,(covers_update_self u x).mpr ⟨by omega,by omega⟩⟩
    · have atB : c ≠ b := fun same => fresh (same ▸ inside)
      exact ⟨c,Finset.mem_insert_of_mem inside,(others c atA atB x).mpr holds⟩
  · intro c insideC d insideD x first second
    obtain ⟨c',oldC,coversC,fromC⟩ := old c insideC x first
    obtain ⟨d',oldD,coversD,fromD⟩ := old d insideD x second
    have same := part.apart c' oldC d' oldD x coversC coversD
    rcases fromC with ⟨isA,sideC⟩ | ⟨notA,rfl⟩
    · rcases fromD with ⟨_,sideD⟩ | ⟨notA,rfl⟩
      -- Both come from `a`, so `x` says on which side of `b` they are.
      · rcases sideC with ⟨rfl,below⟩ | ⟨rfl,above⟩
        · rcases sideD with ⟨rfl,_⟩ | ⟨_,above⟩
          · rfl
          · omega
        · rcases sideD with ⟨_,below⟩ | ⟨rfl,_⟩
          · omega
          · rfl
      · exact absurd (same.symm.trans isA) notA
    · rcases fromD with ⟨isA,_⟩ | ⟨_,rfl⟩
      · exact absurd (same.trans isA) notA
      · exact same

/-- A new block for a new part of the region. -/
theorem partition_grow (part : Partition size K P) {u : Word} (aligned : a.toNat % 8 = 0) (positive : 0 < u.toNat)
    (nonzero : 0 < a.toNat) (fits : a.toNat+8*u.toNat ≤ 2^32) (new : ∀ x, a.toNat ≤ x → x < a.toNat+8*u.toNat → ¬ P x) :
    Partition (Function.update size a u) (insert a K) (fun x => P x ∨ (a.toNat ≤ x ∧ x < a.toNat+8*u.toNat)) := by
  have fresh : a ∉ K := fun old => new a.toNat (le_refl _) (by omega) (part.inside a old _ (covers_start part old))
  have others : ∀ {c}, c ∈ K → c ≠ a := fun inside same => fresh (same ▸ inside)
  refine ⟨?_,?_,?_,?_,?_⟩
  · intro c inside
    rcases Finset.mem_insert.mp inside with rfl | old
    · rw [Function.update_self]
      exact ⟨aligned,positive⟩
    · rw [Function.update_of_ne (others old)]
      exact part.unit c old
  · intro c inside x within
    rcases Finset.mem_insert.mp inside with rfl | old
    · exact .inr ((covers_update_self u x).mp within)
    · exact .inl (part.inside c old x ((covers_update_ne (others old) u x).mp within))
  · rintro x (within | within)
    · obtain ⟨c,old,holds⟩ := part.covered x within
      exact ⟨c,Finset.mem_insert_of_mem old,(covers_update_ne (others old) u x).mpr holds⟩
    · exact ⟨a,Finset.mem_insert_self a K,(covers_update_self u x).mpr within⟩
  · intro c insideC d insideD x first second
    rcases Finset.mem_insert.mp insideC with rfl | oldC <;> rcases Finset.mem_insert.mp insideD with rfl | oldD
    · rfl
    · obtain ⟨low,high⟩ := (covers_update_self u x).mp first
      exact absurd (part.inside d oldD x ((covers_update_ne (others oldD) u x).mp second)) (new x low high)
    · obtain ⟨low,high⟩ := (covers_update_self u x).mp second
      exact absurd (part.inside c oldC x ((covers_update_ne (others oldC) u x).mp first)) (new x low high)
    · exact part.apart c oldC d oldD x ((covers_update_ne (others oldC) u x).mp first)
        ((covers_update_ne (others oldD) u x).mp second)
  · rintro x (within | within)
    · exact part.bounded x within
    · omega

end Partition

/-! ### Free and live blocks -/

/-- All blocks but the sentinel. -/
def blocks (base : Word) (F B : Finset Word) : Finset Word := F.erase base ∪ B

/-- The free blocks `F` form a ring with the sentinel `base`, no two of them could
    be joined, and together with the live blocks `B` they divide the region `P`,
    which keeps away from the sentinel. -/
structure Shape (nxt size : Word → Word) (base : Word) (F B : Finset Word) (P : Nat → Prop) : Prop where
  sentinel : base ∈ F
  empty : size base = 0#32
  ring : ∀ a ∈ F, IsNext F a (nxt a)
  notLive : ∀ a ∈ F, a ∉ B
  parts : Partition size (blocks base F B) P
  coalesced : ∀ a ∈ F, ∀ b ∈ F, a ≠ b → a.toNat+8*(size a).toNat ≠ b.toNat
  clear : ∀ x, P x → x+1 < base.toNat ∨ base.toNat+8 ≤ x
  anchored : 0 < base.toNat ∧ base.toNat+8 ≤ 2^32

theorem mem_blocks {base a : Word} {F B : Finset Word} : a ∈ blocks base F B ↔ (a ≠ base ∧ a ∈ F) ∨ a ∈ B := by
  simp [blocks]

theorem blocks_insert (base x : Word) (F B : Finset Word) :
    blocks base F (insert x B) = insert x (blocks base F B) := by
  ext a
  simp only [mem_blocks,Finset.mem_insert]
  tauto

section Shape
variable {nxt size : Word → Word} {base c n x : Word} {F B : Finset Word} {P : Nat → Prop}

theorem shape_congr {nxt' size' : Word → Word} (shape : Shape nxt size base F B P)
    (sameNext : ∀ a ∈ F, nxt' a = nxt a) (sameSize : ∀ a ∈ F ∪ B, size' a = size a) :
    Shape nxt' size' base F B P where
  sentinel := shape.sentinel
  empty := by rw [sameSize base (Finset.mem_union_left B shape.sentinel),shape.empty]
  ring := fun a inside => sameNext a inside ▸ shape.ring a inside
  notLive := shape.notLive
  parts := partition_congr shape.parts (by
    intro a inside
    refine sameSize a (Finset.mem_union.mpr ?_)
    exact (mem_blocks.mp inside).imp And.right id)
  coalesced := by
    intro a insideA b insideB
    rw [sameSize a (Finset.mem_union_left B insideA)]
    exact shape.coalesced a insideA b insideB
  clear := shape.clear
  anchored := shape.anchored

theorem live_ne_base (shape : Shape nxt size base F B P) (live : x ∈ B) : x ≠ base := by
  rintro rfl
  exact shape.notLive x shape.sentinel live

theorem live_notFree (shape : Shape nxt size base F B P) (live : x ∈ B) : x ∉ F :=
  fun free => shape.notLive x free live

/-- No member of the list lies inside a block other than itself. -/
theorem member_outside (shape : Shape nxt size base F B P) {a : Word} (block : a ∈ blocks base F B) (member : n ∈ F)
    (within : Covers size a n.toNat) : n = a := by
  by_cases isBase : n = base
  · subst isBase
    have := shape.clear _ (shape.parts.inside a block _ within)
    omega
  · exact start_inside shape.parts block (mem_blocks.mpr (.inl ⟨isBase,member⟩)) within

/-- A header takes the first unit of its block, so that headers do not overlap. -/
theorem headers_apart (shape : Shape nxt size base F B P) {a b : Word} (insideA : a ∈ F ∪ B) (insideB : b ∈ F ∪ B)
    (differ : a ≠ b) : a.toNat+8 ≤ b.toNat ∨ b.toNat+8 ≤ a.toNat := by
  have block : ∀ {d}, d ∈ F ∪ B → d ≠ base → d ∈ blocks base F B := fun member other =>
    mem_blocks.mpr ((Finset.mem_union.mp member).imp (fun free => ⟨other,free⟩) id)
  have beside : ∀ {d}, d ∈ F ∪ B → d ≠ base → d.toNat+8 ≤ base.toNat ∨ base.toNat+8 ≤ d.toNat := by
    intro d member other
    have isBlock := block member other
    have positive := (shape.parts.unit d isBlock).2
    have start := shape.clear _ (shape.parts.inside d isBlock _ (covers_start shape.parts isBlock))
    by_contra overlap
    have := shape.clear _ (shape.parts.inside d isBlock base.toNat ⟨by omega,by omega⟩)
    omega
  by_cases baseA : a = base
  · subst baseA
    exact (beside insideB (Ne.symm differ)).symm
  · by_cases baseB : b = base
    · subst baseB
      exact beside insideA differ
    · have blockA := block insideA baseA
      have blockB := block insideB baseB
      have positiveA := (shape.parts.unit a blockA).2
      have positiveB := (shape.parts.unit b blockB).2
      by_contra overlap
      rcases Nat.le_total a.toNat b.toNat with low | high
      · exact differ (start_inside shape.parts blockA blockB ⟨low,by omega⟩).symm
      · exact differ (start_inside shape.parts blockB blockA ⟨high,by omega⟩)

/-- Every header lies in memory and not at the null pointer. -/
theorem header_fits (shape : Shape nxt size base F B P) {a : Word} (inside : a ∈ F ∪ B) :
    0 < a.toNat ∧ a.toNat+8 ≤ 2^32 := by
  by_cases isBase : a = base
  · rw [isBase]
    exact shape.anchored
  · have block : a ∈ blocks base F B :=
      mem_blocks.mpr ((Finset.mem_union.mp inside).imp (fun free => ⟨isBase,free⟩) id)
    have positive := (shape.parts.unit a block).2
    have ends := block_end shape.parts block
    exact ⟨(shape.parts.bounded _ (shape.parts.inside a block _ (covers_start shape.parts block))).1,by omega⟩

/-- The sentinel is not the only member when there is another one. -/
theorem next_ne (shape : Shape nxt size base F B P) (member : n ∈ F) (notBase : n ≠ base) : nxt n ≠ n := by
  intro own
  have alone := shape.ring n member
  rw [own] at alone
  exact notBase (isNext_self alone shape.sentinel).symm

/-- The sentinel has no units to join a block to. -/
theorem joined_ne_base (shape : Shape nxt size base F B P) (live : x ∈ B)
    (follows : n.toNat+8*(size n).toNat = x.toNat) : n ≠ base := by
  rintro rfl
  rw [shape.empty] at follows
  exact live_ne_base shape live (BitVec.eq_of_toNat_eq (by simpa using follows.symm))

/-- A block can only be joined with the member after its place. -/
theorem joins_upper (shape : Shape nxt size base F B P) (live : x ∈ B) (place : c ∈ F)
    (before : gap c x < gap c (nxt c)) (member : n ∈ F) (follows : x.toNat+8*(size x).toNat = n.toNat) : n = nxt c := by
  by_contra other
  have block := mem_blocks.mpr (.inr live : (x ≠ base ∧ x ∈ F) ∨ x ∈ B)
  have positive := (shape.parts.unit x block).2
  have next := isNext_inserted (shape.ring c place) before
  have near := next.2 n (Finset.mem_insert_of_mem member)
  have differ : gap x (nxt c) ≠ gap x n := fun same => other (gap_inj same).symm
  have within : Covers size x (nxt c).toNat := by
    rw [gap_eq x n,if_pos (by omega)] at near differ
    rw [gap_eq] at near differ
    split_ifs at near differ
    · exact ⟨by omega,by omega⟩
    · omega
  exact live_notFree shape live (member_outside shape block (shape.ring c place).1 within ▸ (shape.ring c place).1)

/-- A block can only be joined with the member at its place. -/
theorem joins_lower (shape : Shape nxt size base F B P) (live : x ∈ B) (place : c ∈ F)
    (before : gap c x < gap c (nxt c)) (member : n ∈ F) (follows : n.toNat+8*(size n).toNat = x.toNat) : n = c := by
  have notBase := joined_ne_base shape live follows
  have block := mem_blocks.mpr (.inl ⟨notBase,member⟩ : (n ≠ base ∧ n ∈ F) ∨ n ∈ B)
  have positive := (shape.parts.unit n block).2
  have far := lt_of_lt_of_le before ((shape.ring c place).2 n member)
  by_contra other
  have within : Covers size n c.toNat := by
    have boundC := c.isLt
    have differ : c.toNat ≠ n.toNat := fun same => other (BitVec.eq_of_toNat_eq same.symm)
    rw [gap_eq,gap_eq] at far
    split_ifs at far
    · omega
    · exact ⟨by omega,by omega⟩
    · omega
    · omega
  exact other (member_outside shape block place within).symm

/-- The ring without one of its members. -/
theorem ring_erase (shape : Shape nxt size base F B P) (place : c ∈ F) (next : nxt c = n) (notBase : n ≠ base) :
    ∀ a ∈ F.erase n, IsNext (F.erase n) a (Function.update nxt c (nxt n) a) := by
  have linked : IsNext F c n := next ▸ shape.ring c place
  have differ : c ≠ n := by
    rintro rfl
    exact next_ne shape place notBase next
  intro a inside
  obtain ⟨_,old⟩ := Finset.mem_erase.mp inside
  by_cases here : a = c
  · subst here
    rw [Function.update_self]
    exact isNext_erase place differ linked (shape.ring n linked.1)
  · rw [Function.update_of_ne here]
    refine isNext_erase_other (shape.ring a old) (fun same => here ?_)
    exact isNext_inj old place (same ▸ shape.ring a old) linked

/-- A live block takes in the member after its place, which leaves the ring. -/
theorem shape_absorb_upper (shape : Shape nxt size base F B P) (live : x ∈ B) (place : c ∈ F) (next : nxt c = n)
    (notBase : n ≠ base) (follows : x.toNat+8*(size x).toNat = n.toNat) :
    Shape (Function.update nxt c (nxt n)) (Function.update size x (size x+size n)) base (F.erase n) B P := by
  have member : n ∈ F := next ▸ (shape.ring c place).1
  have notX : ∀ {a}, a ∈ F → a ≠ x := fun free same => live_notFree shape live (same ▸ free)
  constructor
  case sentinel => exact Finset.mem_erase.mpr ⟨notBase.symm,shape.sentinel⟩
  case empty => rw [Function.update_of_ne (live_ne_base shape live).symm,shape.empty]
  case ring => exact ring_erase shape place next notBase
  case notLive => exact fun a inside => shape.notLive a (Finset.mem_of_mem_erase inside)
  case parts =>
    have rest : blocks base (F.erase n) B = (blocks base F B).erase n := by
      have notLive := shape.notLive n member
      ext a
      by_cases here : a = n
      · subst here
        simp [mem_blocks,notLive]
      · simp [mem_blocks,here]
    rw [rest]
    exact partition_merge shape.parts (mem_blocks.mpr (.inr live)) (mem_blocks.mpr (.inl ⟨notBase,member⟩)) follows
  case coalesced =>
    intro a insideA b insideB
    have oldA := Finset.mem_of_mem_erase insideA
    rw [Function.update_of_ne (notX oldA)]
    exact shape.coalesced a oldA b (Finset.mem_of_mem_erase insideB)
  case clear => exact shape.clear
  case anchored => exact shape.anchored

/-- A live block goes into the ring at its place. -/
theorem shape_insert (shape : Shape nxt size base F B P) (live : x ∈ B) (place : c ∈ F)
    (before : gap c x < gap c (nxt c)) (notUpper : x.toNat+8*(size x).toNat ≠ (nxt c).toNat)
    (notLower : c.toNat+8*(size c).toNat ≠ x.toNat) :
    Shape (Function.update (Function.update nxt x (nxt c)) c x) size base (insert x F) (B.erase x) P := by
  have notX : ∀ {a}, a ∈ F → a ≠ x := fun free same => live_notFree shape live (same ▸ free)
  constructor
  case sentinel => exact Finset.mem_insert_of_mem shape.sentinel
  case empty => exact shape.empty
  case ring =>
    intro a inside
    by_cases atC : a = c
    · subst atC
      rw [Function.update_self]
      exact isNext_insert (shape.ring a place) before
    · rw [Function.update_of_ne atC]
      rcases Finset.mem_insert.mp inside with rfl | old
      · rw [Function.update_self]
        exact isNext_inserted (shape.ring c place) before
      · rw [Function.update_of_ne (notX old)]
        exact isNext_insert_other place old atC (shape.ring c place) before (shape.ring a old)
  case notLive =>
    intro a inside live'
    rcases Finset.mem_insert.mp inside with rfl | old
    · exact (Finset.mem_erase.mp live').1 rfl
    · exact shape.notLive a old (Finset.mem_of_mem_erase live')
  case parts =>
    have same : blocks base (insert x F) (B.erase x) = blocks base F B := by
      have notBase := live_ne_base shape live
      ext a
      by_cases here : a = x
      · subst here
        simp [mem_blocks,live,notBase]
      · simp [mem_blocks,here]
    rw [same]
    exact shape.parts
  case coalesced =>
    intro a insideA b insideB differ follows
    rcases Finset.mem_insert.mp insideA with rfl | oldA <;> rcases Finset.mem_insert.mp insideB with rfl | oldB
    · exact differ rfl
    · exact notUpper (joins_upper shape live place before oldB follows ▸ follows)
    · exact notLower (joins_lower shape live place before oldA follows ▸ follows)
    · exact shape.coalesced a oldA b oldB differ follows
  case clear => exact shape.clear
  case anchored => exact shape.anchored

/-- The member at its place takes in a live block. -/
theorem shape_absorb_lower (shape : Shape nxt size base F B P) (live : x ∈ B) (place : c ∈ F)
    (before : gap c x < gap c (nxt c)) (notUpper : x.toNat+8*(size x).toNat ≠ (nxt c).toNat)
    (follows : c.toNat+8*(size c).toNat = x.toNat) :
    Shape nxt (Function.update size c (size c+size x)) base F (B.erase x) P := by
  have notBase := joined_ne_base shape live follows
  have block : c ∈ blocks base F B := mem_blocks.mpr (.inl ⟨notBase,place⟩)
  have liveBlock : x ∈ blocks base F B := mem_blocks.mpr (.inr live)
  constructor
  case sentinel => exact shape.sentinel
  case empty => rw [Function.update_of_ne notBase.symm,shape.empty]
  case ring => exact shape.ring
  case notLive => exact fun a inside live' => shape.notLive a inside (Finset.mem_of_mem_erase live')
  case parts =>
    have rest : blocks base F (B.erase x) = (blocks base F B).erase x := by
      have notFree := live_notFree shape live
      ext a
      by_cases here : a = x
      · subst here
        simp [mem_blocks,notFree]
      · simp [mem_blocks,here]
    rw [rest]
    exact partition_merge shape.parts block liveBlock follows
  case coalesced =>
    intro a insideA b insideB differ
    by_cases here : a = c
    · subst here
      have total : (size a+size x).toNat = (size a).toNat+(size x).toNat := by
        have := block_end shape.parts liveBlock
        rw [BitVec.toNat_add,Nat.mod_eq_of_lt (by omega)]
      rw [Function.update_self,total]
      intro upper
      have ends : x.toNat+8*(size x).toNat = b.toNat := by omega
      exact notUpper (joins_upper shape live place before insideB ends ▸ ends)
    · rw [Function.update_of_ne here]
      exact shape.coalesced a insideA b insideB differ
  case clear => exact shape.clear
  case anchored => exact shape.anchored

/-- A free block leaves the ring and is live. -/
theorem shape_take_whole (shape : Shape nxt size base F B P) (place : c ∈ F) (next : nxt c = n) (notBase : n ≠ base) :
    Shape (Function.update nxt c (nxt n)) size base (F.erase n) (insert n B) P := by
  have member : n ∈ F := next ▸ (shape.ring c place).1
  constructor
  case sentinel => exact Finset.mem_erase.mpr ⟨notBase.symm,shape.sentinel⟩
  case empty => exact shape.empty
  case ring => exact ring_erase shape place next notBase
  case notLive =>
    intro a inside live
    obtain ⟨notN,old⟩ := Finset.mem_erase.mp inside
    exact shape.notLive a old ((Finset.mem_insert.mp live).resolve_left notN)
  case parts =>
    have same : blocks base (F.erase n) (insert n B) = blocks base F B := by
      ext a
      by_cases here : a = n
      · subst here
        simp [mem_blocks,member,notBase]
      · simp [mem_blocks,here]
    rw [same]
    exact shape.parts
  case coalesced =>
    exact fun a insideA b insideB =>
      shape.coalesced a (Finset.mem_of_mem_erase insideA) b (Finset.mem_of_mem_erase insideB)
  case clear => exact shape.clear
  case anchored => exact shape.anchored

/-- The upper units of a free block are live. -/
theorem shape_take_tail (shape : Shape nxt size base F B P) (member : c ∈ F) {u : Word} (positive : 0 < u.toNat)
    (smaller : u.toNat < (size c).toNat) (upper : x.toNat = c.toNat+8*((size c).toNat-u.toNat)) :
    Shape nxt (Function.update (Function.update size c (size c-u)) x u) base F (insert x B) P := by
  have notBase : c ≠ base := by
    rintro rfl
    simp [shape.empty] at smaller
  have block : c ∈ blocks base F B := mem_blocks.mpr (.inl ⟨notBase,member⟩)
  have differ : x ≠ c := by
    rintro rfl
    omega
  have notX : ∀ {a}, a ∈ F → a ≠ x := by
    rintro a free rfl
    exact differ (member_outside shape block free ⟨by omega,by omega⟩)
  have rest : (size c-u).toNat = (size c).toNat-u.toNat := by
    rw [BitVec.toNat_sub_of_le (BitVec.le_def.mpr (by omega))]
  constructor
  case sentinel => exact shape.sentinel
  case empty => rw [Function.update_of_ne (notX shape.sentinel),Function.update_of_ne notBase.symm,shape.empty]
  case ring => exact shape.ring
  case notLive =>
    intro a inside live
    exact shape.notLive a inside ((Finset.mem_insert.mp live).resolve_left (notX inside))
  case parts =>
    rw [blocks_insert]
    exact partition_split shape.parts block positive smaller upper
  case coalesced =>
    intro a insideA b insideB other
    rw [Function.update_of_ne (notX insideA)]
    by_cases here : a = c
    · subst here
      rw [Function.update_self,rest,← upper]
      exact fun same => notX insideB (BitVec.eq_of_toNat_eq same.symm)
    · rw [Function.update_of_ne here]
      exact shape.coalesced a insideA b insideB other
  case clear => exact shape.clear
  case anchored => exact shape.anchored

/-- A new part of the region is one live block. -/
theorem shape_grow (shape : Shape nxt size base F B P) {u : Word} (aligned : x.toNat % 8 = 0) (positive : 0 < u.toNat)
    (nonzero : 0 < x.toNat) (fits : x.toNat+8*u.toNat ≤ 2^32) (new : ∀ y, x.toNat ≤ y → y < x.toNat+8*u.toNat → ¬ P y)
    (away : ∀ y, x.toNat ≤ y → y < x.toNat+8*u.toNat → y+1 < base.toNat ∨ base.toNat+8 ≤ y) :
    Shape nxt (Function.update size x u) base F (insert x B)
      (fun y => P y ∨ (x.toNat ≤ y ∧ y < x.toNat+8*u.toNat)) := by
  have notX : ∀ {a}, a ∈ F → a ≠ x := by
    rintro a free rfl
    by_cases isBase : a = base
    · subst isBase
      have := away a.toNat (le_refl _) (by omega)
      omega
    · have block : a ∈ blocks base F B := mem_blocks.mpr (.inl ⟨isBase,free⟩)
      exact new a.toNat (le_refl _) (by omega) (shape.parts.inside a block _ (covers_start shape.parts block))
  constructor
  case sentinel => exact shape.sentinel
  case empty => rw [Function.update_of_ne (notX shape.sentinel),shape.empty]
  case ring => exact shape.ring
  case notLive =>
    intro a inside live
    exact shape.notLive a inside ((Finset.mem_insert.mp live).resolve_left (notX inside))
  case parts =>
    rw [blocks_insert]
    exact partition_grow shape.parts aligned positive nonzero fits new
  case coalesced =>
    intro a insideA b insideB
    rw [Function.update_of_ne (notX insideA)]
    exact shape.coalesced a insideA b insideB
  case clear =>
    rintro y (old | ⟨low,high⟩)
    · exact shape.clear y old
    · exact away y low high
  case anchored => exact shape.anchored

end Shape

/-! ### The free blocks are determined by the live ones

With nothing left to join, the free blocks are the largest ranges of the region
that no live block covers, however the list came about. -/

section Canonical
variable {nxt size nxt' size' : Word → Word} {base a : Word} {F F' B : Finset Word} {P : Nat → Prop}

/-- What no live block covers is covered by a free one in every list. -/
theorem free_covered (shape : Shape nxt size base F B P) (shape' : Shape nxt' size' base F' B P)
    (same : ∀ c ∈ B, size' c = size c) (member : a ∈ F) (notBase : a ≠ base) {x : Nat} (covers : Covers size a x) :
    ∃ c ∈ F', c ≠ base ∧ Covers size' c x := by
  have block : a ∈ blocks base F B := mem_blocks.mpr (.inl ⟨notBase,member⟩)
  obtain ⟨c,block',covers'⟩ := shape'.parts.covered x (shape.parts.inside a block x covers)
  rcases mem_blocks.mp block' with ⟨other,free⟩ | live
  · exact ⟨c,free,other,covers'⟩
  · rw [Covers,same c live] at covers'
    have isA := shape.parts.apart a block c (mem_blocks.mpr (.inr live)) x covers covers'
    exact absurd (isA ▸ live) (shape.notLive a member)

theorem free_start (shape : Shape nxt size base F B P) (shape' : Shape nxt' size' base F' B P)
    (same : ∀ c ∈ B, size' c = size c) (member : a ∈ F) (notBase : a ≠ base) : a ∈ F' := by
  have block : a ∈ blocks base F B := mem_blocks.mpr (.inl ⟨notBase,member⟩)
  obtain ⟨c,free,other,covers⟩ := free_covered shape shape' same member notBase (covers_start shape.parts block)
  by_cases here : c = a
  · exact here ▸ free
  · -- Then the byte before `a` is free as well, and its block could be joined with `a`.
    have low : c.toNat ≠ a.toNat := fun equal => here (BitVec.eq_of_toNat_eq equal)
    have before : Covers size' c (a.toNat-1) := ⟨by have := covers.1; omega,by have := covers.2; omega⟩
    obtain ⟨d,freeD,otherD,coversD⟩ := free_covered shape' shape (fun e live => (same e live).symm) free other before
    have differ : d ≠ a := by
      rintro rfl
      have := coversD.1
      have := covers.1
      omega
    have apart : ¬ Covers size d a.toNat := fun within =>
      differ (start_inside shape.parts (mem_blocks.mpr (.inl ⟨otherD,freeD⟩)) block within).symm
    refine absurd ?_ (shape.coalesced d freeD a member differ)
    simp only [Covers] at coversD apart
    have := covers.1
    omega

theorem free_end (shape : Shape nxt size base F B P) (shape' : Shape nxt' size' base F' B P)
    (same : ∀ c ∈ B, size' c = size c) (member : a ∈ F) (member' : a ∈ F') (notBase : a ≠ base) :
    (size' a).toNat ≤ (size a).toNat := by
  by_contra longer
  have block : a ∈ blocks base F B := mem_blocks.mpr (.inl ⟨notBase,member⟩)
  have positive := (shape.parts.unit a block).2
  -- The byte after `a` is free as well, and its block could be joined with `a`.
  have after : Covers size' a (a.toNat+8*(size a).toNat) := ⟨by omega,by omega⟩
  obtain ⟨d,freeD,otherD,coversD⟩ := free_covered shape' shape (fun e live => (same e live).symm) member' notBase after
  have blockD : d ∈ blocks base F B := mem_blocks.mpr (.inl ⟨otherD,freeD⟩)
  have differ : d ≠ a := by
    rintro rfl
    have := coversD.2
    omega
  have notInside : ¬ Covers size a d.toNat := fun within => differ (start_inside shape.parts block blockD within)
  have notAround : ¬ Covers size d a.toNat := fun within => differ (start_inside shape.parts blockD block within).symm
  refine shape.coalesced a member d freeD differ.symm ?_
  simp only [Covers] at coversD notInside notAround
  omega

/-- Two lists over the same region with the same live blocks have the same free blocks. -/
theorem shape_unique (shape : Shape nxt size base F B P) (shape' : Shape nxt' size' base F' B P)
    (same : ∀ c ∈ B, size' c = size c) : F' = F ∧ ∀ a ∈ F, size' a = size a := by
  have same' : ∀ c ∈ B, size c = size' c := fun c live => (same c live).symm
  have sub : ∀ a ∈ F, a ∈ F' := by
    intro a member
    by_cases isBase : a = base
    · exact isBase ▸ shape'.sentinel
    · exact free_start shape shape' same member isBase
  have sub' : ∀ a ∈ F', a ∈ F := by
    intro a member
    by_cases isBase : a = base
    · exact isBase ▸ shape.sentinel
    · exact free_start shape' shape same' member isBase
  refine ⟨Finset.Subset.antisymm sub' sub,?_⟩
  intro a member
  by_cases isBase : a = base
  · rw [isBase,shape.empty,shape'.empty]
  · exact BitVec.eq_of_toNat_eq (Nat.le_antisymm (free_end shape shape' same member (sub a member) isBase)
      (free_end shape' shape same' (sub a member) member isBase))

end Canonical

end SoKernel.FreeList
