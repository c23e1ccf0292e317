import Mathlib

/-!
Thirty-two-bit words and the memory they address. A word is the `unsigned int`
of the target, memory is a total map from addresses to bytes, and words are
stored with their low byte first. Nothing here knows which program runs.
-/
namespace SoKernel.Words
set_option linter.unusedSimpArgs false

abbrev Byte := BitVec 8
abbrev Word := BitVec 32
abbrev Memory := Word → Byte

/-! ### Bounded loops -/

/-- What every round keeps holds after a counted loop. -/
theorem fold_invariant {σ : Type*} (motive : Nat → σ → Prop) {n : Nat} {f : (i : Nat) → i < n → σ → σ} {s : σ}
    (init : motive 0 s) (round : ∀ i (inside : i < n) t, motive i t → motive (i+1) (f i inside t)) :
    motive n (n.fold f s) := by
  induction n with
  | zero => simpa using init
  | succ n ih =>
    rw [Nat.fold_succ]
    exact round n (by omega) _ (ih (f := fun i h => f i (by omega)) (fun i inside t => round i (by omega) t))

/-- Two counted loops agree when their rounds agree wherever the second one goes. -/
theorem fold_congr {σ : Type*} (motive : Nat → σ → Prop) {n : Nat} {f g : (i : Nat) → i < n → σ → σ} {s : σ}
    (init : motive 0 s)
    (round : ∀ i (inside : i < n) t, motive i t → f i inside t = g i inside t ∧ motive (i+1) (g i inside t)) :
    n.fold f s = n.fold g s ∧ motive n (n.fold g s) := by
  induction n with
  | zero => exact ⟨rfl,by simpa using init⟩
  | succ n ih =>
    obtain ⟨same,holds⟩ := ih (f := fun i h => f i (by omega)) (g := fun i h => g i (by omega))
      (fun i inside t => round i (by omega) t)
    rw [Nat.fold_succ,Nat.fold_succ,same]
    exact round n (by omega) _ holds

/-! ### Masks -/

/-- Clearing the low `k` bits rounds down to a multiple of `2^k`. -/
theorem and_high_toNat (k : Nat) (a : Word) (mask : Word) (low : ∀ i < 32, mask.getLsbD i = decide (k ≤ i)) :
    (a &&& mask).toNat = a.toNat / 2^k * 2^k := by
  apply Nat.eq_of_testBit_eq
  intro i
  rw [BitVec.toNat_and,Nat.testBit_and,Nat.mul_comm,Nat.testBit_two_pow_mul,Nat.testBit_div_two_pow]
  by_cases inside : i < 32
  · have maskBit : mask.toNat.testBit i = decide (k ≤ i) := low i inside
    rw [maskBit]
    by_cases high : k ≤ i
    · simp [high,Nat.sub_add_cancel high]
    · simp [high]
  · have zero : a.toNat.testBit i = false := by
      apply Nat.testBit_lt_two_pow
      exact lt_of_lt_of_le a.isLt (Nat.pow_le_pow_right (by decide) (by omega))
    by_cases high : k ≤ i
    · simp [zero,Nat.sub_add_cancel high]
    · simp [zero,high]

/-- The offset inside a page. -/
theorem and_low_toNat (k : Nat) (bound : k ≤ 32) (a : Word) :
    (a &&& BitVec.ofNat 32 (2^k-1)).toNat = a.toNat % 2^k := by
  have small : 2^k-1 < 2^32 := by
    have := Nat.pow_le_pow_right (n := 2) (by decide) bound
    have := Nat.two_pow_pos k
    omega
  rw [BitVec.toNat_and,BitVec.toNat_ofNat,Nat.mod_eq_of_lt small,Nat.and_two_pow_sub_one_eq_mod]

/-- The bits of a one-bit mask. -/
theorem bit_getLsbD {i : Nat} (inside : i < 32) (j : Nat) : (1#32 <<< i).getLsbD j = decide (j = i) := by
  rw [BitVec.getLsbD_shiftLeft,BitVec.getLsbD_one]
  apply Bool.eq_iff_iff.mpr
  simp only [Bool.and_eq_true,Bool.not_eq_true',decide_eq_true_eq,decide_eq_false_iff_not]
  omega

theorem and_bit_zero {i : Nat} (inside : i < 32) (w : Word) :
    w &&& 1#32 <<< i = 0#32 ↔ w.getLsbD i = false := by
  constructor
  · intro zero
    have bit := congrArg (fun v => BitVec.getLsbD v i) zero
    simpa [bit_getLsbD inside] using bit
  · intro clear
    apply BitVec.eq_of_getLsbD_eq
    intro j _
    rw [BitVec.getLsbD_and,bit_getLsbD inside]
    by_cases same : j = i
    · simp [same,clear]
    · simp [same]

/-! ### Memory -/

/-- A word of memory, low byte first. -/
def read32 (m : Memory) (a : Word) : Word := m (a+3#32) ++ m (a+2#32) ++ m (a+1#32) ++ m a
/-- Two words of memory, low word first. -/
def read64 (m : Memory) (a : Word) : BitVec 64 := read32 m (a+4#32) ++ read32 m a
/-- Memory after a word is stored, low byte first. -/
def write32 (m : Memory) (a v : Word) : Memory := fun b =>
  if b = a then v.extractLsb' 0 8 else
  if b = a+1#32 then v.extractLsb' 8 8 else
  if b = a+2#32 then v.extractLsb' 16 8 else
  if b = a+3#32 then v.extractLsb' 24 8 else m b
/-- Memory after a byte is stored. -/
def write8 (m : Memory) (a : Word) (v : Byte) : Memory := fun b => if b = a then v else m b

/-- The four bytes that a word at an address takes. -/
def InWord (a b : Word) : Prop := b = a ∨ b = a+1#32 ∨ b = a+2#32 ∨ b = a+3#32

/-- A store reaches no byte outside its word. -/
theorem write32_outside {m : Memory} {a v b : Word} (outside : ¬ InWord a b) : write32 m a v b = m b := by
  simp only [InWord,not_or] at outside
  simp [write32,outside]

/-- Reading depends on the four bytes of the word only. -/
theorem read32_congr {m n : Memory} {a : Word} (same : ∀ b, InWord a b → m b = n b) : read32 m a = read32 n a := by
  simp only [read32]
  rw [same a (by simp [InWord]),same (a+1#32) (by simp [InWord]),same (a+2#32) (by simp [InWord]),
    same (a+3#32) (by simp [InWord])]

private theorem bytes_join (v : Word) :
    (v.extractLsb' 24 8 ++ v.extractLsb' 16 8 ++ v.extractLsb' 8 8 ++ v.extractLsb' 0 8 : Word) = v := by
  apply BitVec.eq_of_getLsbD_eq
  intro i inside
  simp only [BitVec.getLsbD_append,BitVec.getLsbD_extractLsb']
  by_cases first : i < 8
  · simp [first]
  · by_cases second : i-8 < 8
    · simp [first,second,show 8+(i-8) = i by omega]
    · by_cases third : i-8-8 < 8
      · simp [first,second,third,show 16+(i-8-8) = i by omega]
      · simp [first,second,third,show i-8-8-8 < 8 by omega,show 24+(i-8-8-8) = i by omega]

/-- A word reads back as it was stored. -/
@[simp] theorem read32_write32 (m : Memory) (a v : Word) : read32 (write32 m a v) a = v := by
  have one : a+1#32 ≠ a := by bv_omega
  have two : a+2#32 ≠ a ∧ a+2#32 ≠ a+1#32 := ⟨by bv_omega,by bv_omega⟩
  have three : a+3#32 ≠ a ∧ a+3#32 ≠ a+1#32 ∧ a+3#32 ≠ a+2#32 := ⟨by bv_omega,by bv_omega,by bv_omega⟩
  simp only [read32,write32,one,two,three,if_true,if_false]
  exact bytes_join v

/-- A byte is stored over the low byte of a word. -/
theorem read32_write8 (m : Memory) (a : Word) (v : Byte) :
    read32 (write8 m a v) a = (read32 m a).extractLsb' 8 24 ++ v := by
  have rest : (read32 m a).extractLsb' 8 24 = m (a+3#32) ++ m (a+2#32) ++ m (a+1#32) := by
    rw [read32]
    exact BitVec.extractLsb'_append_eq_left
  rw [rest]
  simp [read32,write8]

/-- The bytes of a word at a multiple of four. -/
theorem inWord_aligned {a b : Word} (aligned : a.toNat % 4 = 0) : InWord a b ↔ b.toNat / 4 * 4 = a.toNat := by
  have boundA := a.isLt
  have boundB := b.isLt
  simp only [InWord,BitVec.toNat_eq,BitVec.toNat_add,BitVec.toNat_ofNat]
  omega

/-- A store to one aligned word leaves every other aligned word alone. -/
theorem read32_write32_ne {m : Memory} {a b v : Word} (alignedA : a.toNat % 4 = 0) (alignedB : b.toNat % 4 = 0)
    (ne : a ≠ b) : read32 (write32 m a v) b = read32 m b := by
  apply read32_congr
  intro c inB
  refine write32_outside (fun inA => ne (BitVec.eq_of_toNat_eq ?_))
  rw [← (inWord_aligned alignedA).mp inA,(inWord_aligned alignedB).mp inB]

/-- The bytes of a word that does not wrap around. -/
theorem inWord_range {a b : Word} (fits : a.toNat+4 ≤ 2^32) :
    InWord a b ↔ a.toNat ≤ b.toNat ∧ b.toNat < a.toNat+4 := by
  have bound := b.isLt
  simp only [InWord,BitVec.toNat_eq,BitVec.toNat_add,BitVec.toNat_ofNat]
  omega

/-- A store leaves every word beside it alone. -/
theorem read32_write32_apart {m : Memory} {a b v : Word} (fitsA : a.toNat+4 ≤ 2^32) (fitsB : b.toNat+4 ≤ 2^32)
    (apart : a.toNat+4 ≤ b.toNat ∨ b.toNat+4 ≤ a.toNat) : read32 (write32 m a v) b = read32 m b := by
  apply read32_congr
  intro c inB
  refine write32_outside (fun inA => ?_)
  have := (inWord_range fitsA).mp inA
  have := (inWord_range fitsB).mp inB
  omega

/-! ### Runs of bytes -/

/-- The bytes of a word, low byte first. -/
def little (v : Word) : List Byte := [v.extractLsb' 0 8,v.extractLsb' 8 8,v.extractLsb' 16 8,v.extractLsb' 24 8]

@[simp] theorem little_length (v : Word) : (little v).length = 4 := rfl

/-- Memory has these bytes from this address on. -/
def Holds (m : Memory) (a : Word) (bytes : List Byte) : Prop :=
  ∀ i b, bytes[i]? = some b → m (a+BitVec.ofNat 32 i) = b

theorem holds_append {m : Memory} {a : Word} {first second : List Byte} :
    Holds m a (first++second) ↔ Holds m a first ∧ Holds m (a+BitVec.ofNat 32 first.length) second := by
  constructor
  · intro holds
    constructor
    · intro i b here
      obtain ⟨inside,_⟩ := List.getElem?_eq_some_iff.mp here
      exact holds i b (by rw [List.getElem?_append_left inside,here])
    · intro i b here
      rw [BitVec.add_assoc,← BitVec.ofNat_add]
      exact holds (first.length+i) b (by rw [List.getElem?_append_right (by omega),Nat.add_sub_cancel_left,here])
  · rintro ⟨left,right⟩ i b here
    by_cases inside : i < first.length
    · exact left i b (by rwa [List.getElem?_append_left inside] at here)
    · rw [List.getElem?_append_right (by omega)] at here
      have found := right (i-first.length) b here
      rwa [BitVec.add_assoc,← BitVec.ofNat_add,Nat.add_sub_cancel' (by omega)] at found

/-- The part of a concatenation that one element contributes. -/
theorem holds_flatMap {α : Type*} {m : Memory} {a : Word} {bytes : α → List Byte} {xs : List α} {i : Nat} {x : α}
    (holds : Holds m a (xs.flatMap bytes)) (here : xs[i]? = some x) :
    Holds m (a+BitVec.ofNat 32 ((xs.take i).flatMap bytes).length) (bytes x) := by
  obtain ⟨inside,rfl⟩ := List.getElem?_eq_some_iff.mp here
  rw [← List.take_append_drop i xs,List.drop_eq_getElem_cons inside,List.flatMap_append,List.flatMap_cons] at holds
  exact (holds_append.mp (holds_append.mp holds).2).1

theorem holds_read32 {m : Memory} {a v : Word} (holds : Holds m a (little v)) : read32 m a = v := by
  have first : m a = v.extractLsb' 0 8 := by simpa using holds 0 _ rfl
  simp only [read32,first,holds 1 _ rfl,holds 2 _ rfl,holds 3 _ rfl]
  exact bytes_join v

/-- Memory with these bytes from this address on and zero elsewhere. -/
def loaded (a : Word) (bytes : List Byte) : Memory := fun b => bytes.getD (b-a).toNat 0#8

theorem loaded_holds {a : Word} {bytes : List Byte} (fits : bytes.length ≤ 2^32) :
    Holds (loaded a bytes) a bytes := by
  intro i b here
  obtain ⟨inside,_⟩ := List.getElem?_eq_some_iff.mp here
  have back : (a+BitVec.ofNat 32 i-a).toNat = i := by
    rw [BitVec.add_comm,BitVec.add_sub_cancel,BitVec.toNat_ofNat,Nat.mod_eq_of_lt (by omega)]
  simp only [loaded,back,List.getD_eq_getElem?_getD,here,Option.getD_some]

theorem offset_inj {a : Word} {i j : Nat} (insideI : i < 2^32) (insideJ : j < 2^32)
    (same : a+BitVec.ofNat 32 i = a+BitVec.ofNat 32 j) : i = j := by
  have values := congrArg BitVec.toNat ((BitVec.add_right_inj a).mp same)
  rwa [BitVec.toNat_ofNat,BitVec.toNat_ofNat,Nat.mod_eq_of_lt insideI,Nat.mod_eq_of_lt insideJ] at values

end SoKernel.Words
