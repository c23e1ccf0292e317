import SoKernel.Words

/-!
Memory seen as 4 KiB pages of 1024 words: which page an address is in, stores
to the words of a page, and page addresses with flags in their low bits.
-/
namespace SoKernel.Pages
open SoKernel.Words
set_option linter.unusedSimpArgs false

/-- The number of the page that an address is in. -/
def pageOf (a : Word) : Nat := a.toNat/4096
def PageAligned (p : Word) : Prop := p.toNat % 4096 = 0
/-- The address of a word of a page. -/
def slot (p : Word) (i : Nat) : Word := p+BitVec.ofNat 32 (4*i)
/-- A word of a page. -/
def entry (m : Memory) (p : Word) (i : Nat) : Word := read32 m (slot p i)
/-- The address of a page. -/
def pageAddr (n : Nat) : Word := BitVec.ofNat 32 (n*4096)

theorem pageOf_lt (a : Word) : pageOf a < 1048576 := by
  have := a.isLt
  simp only [pageOf]
  omega

theorem pageAddr_toNat {n : Nat} (inside : n < 1048576) : (pageAddr n).toNat = n*4096 := by
  rw [pageAddr,BitVec.toNat_ofNat]
  omega

theorem pageAddr_aligned (n : Nat) : PageAligned (pageAddr n) := by
  simp only [PageAligned,pageAddr,BitVec.toNat_ofNat]
  omega

@[simp] theorem pageOf_pageAddr {n : Nat} (inside : n < 1048576) : pageOf (pageAddr n) = n := by
  simp only [pageOf,pageAddr_toNat inside]
  omega

theorem pageAddr_pageOf {p : Word} (aligned : PageAligned p) : pageAddr (pageOf p) = p := by
  apply BitVec.eq_of_toNat_eq
  rw [pageAddr_toNat (pageOf_lt p)]
  simp only [PageAligned] at aligned
  simp only [pageOf]
  omega

theorem page_ext {p q : Word} (alignedP : PageAligned p) (alignedQ : PageAligned q) (same : pageOf p = pageOf q) :
    p = q := by
  rw [← pageAddr_pageOf alignedP,← pageAddr_pageOf alignedQ,same]

/-! ### The words of a page -/

theorem slot_toNat {p : Word} (aligned : PageAligned p) {i : Nat} (inside : i < 1024) :
    (slot p i).toNat = p.toNat+4*i := by
  have := p.isLt
  simp only [PageAligned] at aligned
  rw [slot,BitVec.toNat_add,BitVec.toNat_ofNat]
  omega

theorem slot_inj {p q : Word} (alignedP : PageAligned p) (alignedQ : PageAligned q) {i j : Nat} (insideI : i < 1024)
    (insideJ : j < 1024) : slot p i = slot q j ↔ p = q ∧ i = j := by
  constructor
  · intro same
    have values := congrArg BitVec.toNat same
    rw [slot_toNat alignedP insideI,slot_toNat alignedQ insideJ] at values
    simp only [PageAligned] at alignedP alignedQ
    exact ⟨BitVec.eq_of_toNat_eq (by omega),by omega⟩
  · rintro ⟨rfl,rfl⟩
    rfl

theorem inWord_slot {p : Word} (aligned : PageAligned p) {i : Nat} (inside : i < 1024) {a : Word}
    (inWord : InWord (slot p i) a) : pageOf a = pageOf p := by
  have value := slot_toNat aligned inside
  simp only [PageAligned] at aligned
  rw [inWord_aligned (by rw [value]; omega)] at inWord
  simp only [pageOf]
  omega

/-- A store to a word of a page leaves every other page alone. -/
theorem write_slot_off {p : Word} (aligned : PageAligned p) {i : Nat} (inside : i < 1024) {m : Memory} {v a : Word}
    (other : pageOf a ≠ pageOf p) : write32 m (slot p i) v a = m a :=
  write32_outside (fun inWord => other (inWord_slot aligned inside inWord))

theorem entry_congr {p : Word} (aligned : PageAligned p) {i : Nat} (inside : i < 1024) {m n : Memory}
    (same : ∀ a, pageOf a = pageOf p → m a = n a) : entry m p i = entry n p i :=
  read32_congr (fun a inWord => same a (inWord_slot aligned inside inWord))

theorem entry_write {p q : Word} (alignedP : PageAligned p) (alignedQ : PageAligned q) {i j : Nat} (insideI : i < 1024)
    (insideJ : j < 1024) (m : Memory) (v : Word) :
    entry (write32 m (slot p i) v) q j = if q = p ∧ j = i then v else entry m q j := by
  have slots := slot_inj alignedQ alignedP insideJ insideI
  by_cases same : q = p ∧ j = i
  · rw [if_pos same,entry,slots.mpr same,read32_write32]
  · have slotP := slot_toNat alignedP insideI
    have slotQ := slot_toNat alignedQ insideJ
    simp only [PageAligned] at alignedP alignedQ
    rw [if_neg same,entry,read32_write32_ne (by omega) (by omega) (fun h => same (slots.mp h.symm)),entry]

/-- A page filled word by word holds what was stored, and no other page changes. -/
theorem fill_page {p : Word} (aligned : PageAligned p) (m : Memory) (v : Nat → Word) :
    (∀ j < 1024, entry (Nat.fold 1024 (fun i _ m => write32 m (slot p i) (v i)) m) p j = v j) ∧
      ∀ a, pageOf a ≠ pageOf p → Nat.fold 1024 (fun i _ m => write32 m (slot p i) (v i)) m a = m a := by
  have filled := fold_invariant (n := 1024) (f := fun i _ m => write32 m (slot p i) (v i)) (s := m)
    (fun k t => (∀ j < k, j < 1024 → entry t p j = v j) ∧ ∀ a, pageOf a ≠ pageOf p → t a = m a)
    ⟨by omega,fun _ _ => rfl⟩ (by
      rintro i inside t ⟨before,off⟩
      refine ⟨?_,?_⟩
      · intro j below bound
        rw [entry_write aligned aligned inside bound]
        by_cases same : j = i
        · simp [same]
        · rw [if_neg (fun h => same h.2)]
          exact before j (by omega) bound
      · intro a other
        rw [write_slot_off aligned inside other]
        exact off a other)
  exact ⟨fun j inside => filled.1 j inside inside,filled.2⟩

/-! ### Page addresses with flags -/

theorem aligned_bit {p : Word} (aligned : PageAligned p) {i : Nat} (low : i < 12) : p.getLsbD i = false := by
  have zero : p.toNat % 2^12 = 0 := aligned
  have bit := Nat.testBit_mod_two_pow p.toNat 12 i
  rw [zero,Nat.zero_testBit] at bit
  simpa [low,BitVec.getLsbD] using bit.symm

theorem small_bit {f : Word} (small : f.toNat < 4096) {i : Nat} (high : 12 ≤ i) : f.getLsbD i = false := by
  apply Nat.testBit_lt_two_pow
  exact lt_of_lt_of_le small (Nat.pow_le_pow_right (n := 2) (by decide) high)

/-- The page of a page address with flags. -/
theorem or_flags_page {p f : Word} (aligned : PageAligned p) (small : f.toNat < 4096) :
    (p ||| f) &&& 0xFFFFF000#32 = p := by
  have mask : ∀ i < 32, (0xFFFFF000#32 : Word).getLsbD i = decide (12 ≤ i) := by decide
  apply BitVec.eq_of_getLsbD_eq
  intro i inside
  rw [BitVec.getLsbD_and,BitVec.getLsbD_or,mask i inside]
  by_cases low : i < 12
  · simp [aligned_bit aligned low,show ¬ 12 ≤ i by omega]
  · simp [small_bit small (show 12 ≤ i by omega),show 12 ≤ i by omega]

/-- The flags of a page address with flags. -/
theorem or_flags_and {p f mask : Word} (aligned : PageAligned p) (small : mask.toNat < 4096) :
    (p ||| f) &&& mask = f &&& mask := by
  apply BitVec.eq_of_getLsbD_eq
  intro i _
  rw [BitVec.getLsbD_and,BitVec.getLsbD_and,BitVec.getLsbD_or]
  by_cases low : i < 12
  · simp [aligned_bit aligned low]
  · simp [small_bit small (show 12 ≤ i by omega)]

theorem pageAddr_and (a : Word) : a &&& 0xFFFFF000#32 = pageAddr (pageOf a) := by
  apply BitVec.eq_of_toNat_eq
  rw [and_high_toNat 12 a _ (by decide),pageAddr_toNat (pageOf_lt a)]
  rfl

theorem and_page_aligned (a : Word) : PageAligned (a &&& 0xFFFFF000#32) := by
  rw [pageAddr_and]
  exact pageAddr_aligned _

/-- An address is its page with its offset. -/
theorem page_or_offset (a : Word) : pageAddr (pageOf a) ||| (a &&& 0xFFF#32) = a := by
  have masks : ∀ i < 32, ((0xFFFFF000#32 : Word).getLsbD i || (0xFFF#32 : Word).getLsbD i) = true := by decide
  rw [← pageAddr_and]
  apply BitVec.eq_of_getLsbD_eq
  intro i inside
  rw [BitVec.getLsbD_or,BitVec.getLsbD_and,BitVec.getLsbD_and,← Bool.and_or_distrib_left,masks i inside,Bool.and_true]

/-- A page address joined with an offset. -/
theorem pageOf_join (p virt : Word) : pageOf ((p &&& 0xFFFFF000#32) ||| (virt &&& 0xFFF#32)) = pageOf p := by
  have small : (virt &&& 0xFFF#32).toNat < 4096 := by
    rw [show (0xFFF#32 : Word) = BitVec.ofNat 32 (2^12-1) by decide,and_low_toNat 12 (by decide)]
    omega
  have page := or_flags_page (and_page_aligned p) small
  rw [pageAddr_and,pageAddr_and] at page
  have same := congrArg pageOf page
  rwa [pageOf_pageAddr (pageOf_lt _),pageOf_pageAddr (pageOf_lt _),← pageAddr_and] at same

end SoKernel.Pages
