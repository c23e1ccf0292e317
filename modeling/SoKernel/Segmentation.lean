import SoKernel.Words

/-!
Segments and gates of an x86 processor in protected mode: the descriptors in memory, and
how the processor finds its way through them when it takes an interrupt. Task gates,
the local descriptor table and virtual-8086 mode are left out.
-/
namespace SoKernel.Segmentation
open SoKernel.Words
set_option linter.unusedSimpArgs false

/-! ### Descriptors -/

abbrev Descriptor := BitVec 64
abbrev Selector := BitVec 16

namespace Descriptor
variable (d : Descriptor)

def kind : BitVec 4 := BitVec.extractLsb' 40 4 d
/-- A gate or a segment of the system, not of code or data. -/
def System : Prop := BitVec.getLsbD d 44 = false
def dpl : BitVec 2 := BitVec.extractLsb' 45 2 d
def Present : Prop := BitVec.getLsbD d 47 = true

/-- The address at which a segment begins. -/
def base : Word := BitVec.extractLsb' 56 8 d ++ BitVec.extractLsb' 16 24 d
/-- The limit of a segment that is counted in bytes. -/
def limit : Word := (BitVec.extractLsb' 48 4 d ++ BitVec.extractLsb' 0 16 d).setWidth 32

/-- A segment with code. -/
def Code : Prop := ¬ System d ∧ BitVec.getLsbD d 43 = true
def Conforming : Prop := BitVec.getLsbD d 42 = true
/-- A segment with data that can be written. -/
def Writable : Prop := ¬ System d ∧ BitVec.getLsbD d 43 = false ∧ BitVec.getLsbD d 41 = true

/-- The address to which a gate leads. -/
def offset : Word := BitVec.extractLsb' 48 16 d ++ BitVec.extractLsb' 0 16 d
/-- The segment to which a gate leads. -/
def selector : Selector := BitVec.extractLsb' 16 16 d
/-- A gate that turns interrupts off. -/
def InterruptGate : Prop := System d ∧ kind d = 0xE#4
def TrapGate : Prop := System d ∧ kind d = 0xF#4

instance : Decidable (System d) := inferInstanceAs (Decidable (_ = _))
instance : Decidable (Present d) := inferInstanceAs (Decidable (_ = _))
instance : Decidable (Code d) := inferInstanceAs (Decidable (_ ∧ _))
instance : Decidable (Conforming d) := inferInstanceAs (Decidable (_ = _))
instance : Decidable (Writable d) := inferInstanceAs (Decidable (_ ∧ _))
instance : Decidable (InterruptGate d) := inferInstanceAs (Decidable (_ ∧ _))
instance : Decidable (TrapGate d) := inferInstanceAs (Decidable (_ ∧ _))

end Descriptor

/-- The privilege level that a selector asks for. -/
def rpl (s : Selector) : BitVec 2 := s.extractLsb' 0 2

/-- What a register of the processor holds of a table. -/
structure Table where
  base : Word
  limit : Word
deriving DecidableEq

/-- GDTR, IDTR and the task register. -/
structure Tables where
  gdt : Table
  idt : Table
  tr : Selector
  tss : Table
deriving DecidableEq

/-- The descriptor that a selector names. -/
def descriptor (m : Memory) (gdt : Table) (s : Selector) : Option Descriptor :=
  if s.getLsbD 2 ∨ s.toNat / 8 = 0 ∨ gdt.limit.toNat < s.toNat / 8 * 8+7 then none
  else some (read64 m (gdt.base+BitVec.ofNat 32 (s.toNat / 8 * 8)))

theorem descriptor_found (m : Memory) (base : Word) {limit : Word} {s : Selector}
    (inside : ¬ (s.getLsbD 2 ∨ s.toNat / 8 = 0 ∨ limit.toNat < s.toNat / 8 * 8+7)) :
    descriptor m ⟨base,limit⟩ s = some (read64 m (base+BitVec.ofNat 32 (s.toNat / 8 * 8))) := if_neg inside

/-- `ltr`, which marks the descriptor as busy. -/
def ltr (m : Memory) (gdt : Table) (s : Selector) : Option (Memory × Table) :=
  match descriptor m gdt s with
  | none => none
  | some d =>
    if d.System ∧ d.kind = 0x9#4 ∧ d.Present then
      let a := gdt.base+BitVec.ofNat 32 (s.toNat / 8 * 8+5)
      some (write8 m a (m a ||| 2#8),⟨d.base,d.limit⟩)
    else none

/-! ### Interrupts -/

/-- An exception that the processor raises, with its error code. -/
structure Fault where
  vector : Nat
  code : Nat
deriving DecidableEq

def INVALID_TSS : Nat := 10
def NOT_PRESENT : Nat := 11
def STACK_FAULT : Nat := 12
def GENERAL_PROTECTION : Nat := 13

/-- How the processor enters a handler. -/
structure Entering where
  cs : Selector
  eip : Word
  /-- Interrupts are turned off. -/
  masks : Bool
  /-- The stack that it goes to, if it leaves the one it is on. -/
  stack : Option (Word × Selector)
deriving DecidableEq

/-- The stack of a privilege level in the task segment. -/
def inner_stack (m : Memory) (t : Tables) (level : BitVec 2) (ext : Nat) : Except Fault (Word × Selector) :=
  if t.tss.limit.toNat < 8*level.toNat+9 then .error ⟨INVALID_TSS,t.tr.toNat / 4 * 4+ext⟩
  else
    let esp := read32 m (t.tss.base+BitVec.ofNat 32 (8*level.toNat+4))
    let ss := (read32 m (t.tss.base+BitVec.ofNat 32 (8*level.toNat+8))).setWidth 16
    match descriptor m t.gdt ss with
    | none => .error ⟨INVALID_TSS,ss.toNat / 4 * 4+ext⟩
    | some d =>
      if rpl ss ≠ level ∨ d.dpl ≠ level ∨ ¬ d.Writable then .error ⟨INVALID_TSS,ss.toNat / 4 * 4+ext⟩
      else if ¬ d.Present then .error ⟨STACK_FAULT,ss.toNat / 4 * 4+ext⟩
      else .ok (esp,ss)

/-- The way through the gate to its segment. -/
def through (m : Memory) (t : Tables) (cpl : BitVec 2) (gate : Descriptor) (ext : Nat) : Except Fault Entering :=
  match descriptor m t.gdt gate.selector with
  | none => .error ⟨GENERAL_PROTECTION,gate.selector.toNat / 4 * 4+ext⟩
  | some d =>
    if ¬ d.Code ∨ cpl < d.dpl then .error ⟨GENERAL_PROTECTION,gate.selector.toNat / 4 * 4+ext⟩
    else if ¬ d.Present then .error ⟨NOT_PRESENT,gate.selector.toNat / 4 * 4+ext⟩
    else if d.Conforming ∨ d.dpl = cpl then
      .ok ⟨gate.selector.extractLsb' 2 14 ++ cpl,gate.offset,gate.InterruptGate,none⟩
    else
      match inner_stack m t d.dpl ext with
      | .error fault => .error fault
      | .ok stack => .ok ⟨gate.selector.extractLsb' 2 14 ++ d.dpl,gate.offset,gate.InterruptGate,some stack⟩

/-- The processor takes a vector at a privilege level: by the instruction `int`, or else
    from a device or by an exception. -/
def deliver (m : Memory) (t : Tables) (cpl : BitVec 2) (software : Bool) (n : BitVec 8) : Except Fault Entering :=
  let ext := if software then 0 else 1
  if t.idt.limit.toNat < 8*n.toNat+7 then .error ⟨GENERAL_PROTECTION,8*n.toNat+2+ext⟩
  else
    let gate : Descriptor := read64 m (t.idt.base+BitVec.ofNat 32 (8*n.toNat))
    if ¬ (gate.InterruptGate ∨ gate.TrapGate) then .error ⟨GENERAL_PROTECTION,8*n.toNat+2+ext⟩
    else if software ∧ gate.dpl < cpl then .error ⟨GENERAL_PROTECTION,8*n.toNat+2+ext⟩
    else if ¬ gate.Present then .error ⟨NOT_PRESENT,8*n.toNat+2+ext⟩
    else through m t cpl gate ext

section
variable {m : Memory} {t : Tables} {cpl : BitVec 2} {g d : Descriptor} {ext : Nat} {n : BitVec 8}

/-- The handler runs at the same level, on the same stack. -/
theorem through_same (found : descriptor m t.gdt g.selector = some d) (code : d.Code) (present : d.Present)
    (same : d.dpl = cpl) : through m t cpl g ext = .ok ⟨g.selector.extractLsb' 2 14 ++ cpl,g.offset,g.InterruptGate,none⟩ := by
  have allowed : ¬ (¬ d.Code ∨ cpl < d.dpl) := by
    rintro (noCode | lower)
    · exact noCode code
    · rw [same] at lower
      exact BitVec.lt_irrefl _ lower
  rw [through,found]
  simp only [if_neg allowed,if_neg (not_not.mpr present),if_pos (Or.inr same)]

/-- The handler runs at an inner level, on the stack of that level. -/
theorem through_inner (found : descriptor m t.gdt g.selector = some d) (code : d.Code) (present : d.Present)
    (notConforming : ¬ d.Conforming) (inner : d.dpl < cpl) {stack : Word × Selector}
    (onStack : inner_stack m t d.dpl ext = .ok stack) :
    through m t cpl g ext = .ok ⟨g.selector.extractLsb' 2 14 ++ d.dpl,g.offset,g.InterruptGate,some stack⟩ := by
  have allowed : ¬ (¬ d.Code ∨ cpl < d.dpl) := by
    rintro (noCode | lower)
    · exact noCode code
    · exact BitVec.lt_irrefl _ (BitVec.lt_trans lower inner)
  have leaves : ¬ (d.Conforming ∨ d.dpl = cpl) := by
    rintro (conforming | same)
    · exact notConforming conforming
    · rw [same] at inner
      exact BitVec.lt_irrefl _ inner
  rw [through,found]
  simp only [if_neg allowed,if_neg (not_not.mpr present),if_neg leaves,onStack]

variable {software : Bool} (inside : 8*n.toNat+7 ≤ t.idt.limit.toNat)
  (entry : read64 m (t.idt.base+BitVec.ofNat 32 (8*n.toNat)) = g)
include inside entry

theorem deliver_no_gate (none : ¬ (g.InterruptGate ∨ g.TrapGate)) :
    deliver m t cpl software n = .error ⟨GENERAL_PROTECTION,8*n.toNat+2+if software then 0 else 1⟩ := by
  rw [deliver]
  simp only [if_neg (Nat.not_lt.mpr inside),entry,if_pos none]

/-- The instruction `int` is not for those outside the gate. -/
theorem deliver_denied (isGate : g.InterruptGate) (outside : g.dpl < cpl) :
    deliver m t cpl true n = .error ⟨GENERAL_PROTECTION,8*n.toNat+2⟩ := by
  have both : True ∧ g.dpl < cpl := ⟨trivial,outside⟩
  rw [deliver]
  simp only [if_neg (Nat.not_lt.mpr inside),entry,if_neg (not_not.mpr (Or.inl isGate)),if_pos both,if_true,Nat.add_zero]

theorem deliver_gate (isGate : g.InterruptGate) (present : g.Present) (allowed : ¬ (software = true ∧ g.dpl < cpl)) :
    deliver m t cpl software n = through m t cpl g (if software then 0 else 1) := by
  rw [deliver]
  simp only [if_neg (Nat.not_lt.mpr inside),entry,if_neg (not_not.mpr (Or.inl isGate)),if_neg allowed,
    if_neg (not_not.mpr present)]

end

/-! ### Parts of memory -/

/-- Two memories agree on a part that does not wrap around. -/
def Agree (m m' : Memory) (a : Word) (length : Nat) : Prop :=
  ∀ b : Word, a.toNat ≤ b.toNat → b.toNat < a.toNat+length → m b = m' b

/-- Two parts of memory that do not overlap. -/
def Beside (a : Word) (m : Nat) (b : Word) (n : Nat) : Prop := a.toNat+m ≤ b.toNat ∨ b.toNat+n ≤ a.toNat

/-- Memory changes in one part only. -/
def Within (m m' : Memory) (a : Word) (length : Nat) : Prop :=
  ∀ b : Word, m' b ≠ m b → a.toNat ≤ b.toNat ∧ b.toNat < a.toNat+length

theorem within_refl (m : Memory) (a : Word) (length : Nat) : Within m m a length := fun _ changed => absurd rfl changed

theorem within_trans {m m' m'' : Memory} {a : Word} {length : Nat} (first : Within m m' a length)
    (second : Within m' m'' a length) : Within m m'' a length := by
  intro b changed
  by_cases same : m'' b = m' b
  · exact first b (by rwa [same] at changed)
  · exact second b same

/-- Other parts stay as they are. -/
theorem within_agree {m m' : Memory} {a b : Word} {length n : Nat} (within : Within m m' a length)
    (beside : Beside a length b n) : Agree m' m b n := by
  intro c from_ below
  by_contra changed
  have range := within c changed
  rcases beside with first | second <;> omega

/-- The address `i` bytes after `a`. -/
theorem toNat_after {a : Word} {i : Nat} (fits : a.toNat+i < 2^32) : (a+BitVec.ofNat 32 i).toNat = a.toNat+i := by
  rw [BitVec.toNat_add,BitVec.toNat_ofNat]
  omega

theorem agree_read32 {m m' : Memory} {a : Word} {length i : Nat} (agree : Agree m m' a length) (fits : a.toNat+length ≤ 2^32)
    (inside : i+4 ≤ length) : read32 m (a+BitVec.ofNat 32 i) = read32 m' (a+BitVec.ofNat 32 i) := by
  have start := toNat_after (a := a) (i := i) (by omega)
  apply read32_congr
  intro b inWord
  have range := (inWord_range (by omega)).mp inWord
  exact agree b (by omega) (by omega)

theorem agree_read64 {m m' : Memory} {a : Word} {length i : Nat} (agree : Agree m m' a length) (fits : a.toNat+length ≤ 2^32)
    (inside : i+8 ≤ length) : read64 m (a+BitVec.ofNat 32 i) = read64 m' (a+BitVec.ofNat 32 i) := by
  have next : a+BitVec.ofNat 32 i+4#32 = a+BitVec.ofNat 32 (i+4) := by
    rw [BitVec.add_assoc,← BitVec.ofNat_add]
  rw [read64,read64,next,agree_read32 agree fits (by omega),agree_read32 agree fits (by omega)]

/-- A descriptor is stored. -/
def write64 (m : Memory) (a : Word) (v : BitVec 64) : Memory :=
  write32 (write32 m a (v.extractLsb' 0 32)) (a+4#32) (v.extractLsb' 32 32)

theorem read64_write64 (m : Memory) (a : Word) (v : BitVec 64) : read64 (write64 m a v) a = v := by
  have apart : read32 (write64 m a v) a = v.extractLsb' 0 32 := by
    rw [write64,read32_congr (n := write32 m a (v.extractLsb' 0 32)),read32_write32]
    intro b low
    refine write32_outside (fun high => ?_)
    rcases low with rfl | rfl | rfl | rfl <;> rcases high with h | h | h | h <;> bv_omega
  rw [read64,apart,write64,read32_write32]
  exact (BitVec.extractLsb'_append_extractLsb'_eq_extractLsb' (by rfl)).trans BitVec.extractLsb'_eq_self

/-- A part of a part. -/
theorem extract_extract {w : Nat} (v : BitVec w) {i j length len : Nat} (inside : j+len ≤ length) :
    (v.extractLsb' i length).extractLsb' j len = v.extractLsb' (i+j) len := by
  refine BitVec.eq_of_getLsbD_eq (fun n below => ?_)
  simp only [BitVec.getLsbD_extractLsb',show j+n < length by omega,decide_true,Bool.true_and,Nat.add_assoc]

/-- Eight bytes that are stored one by one make a descriptor. -/
theorem eq_write64 {m m' : Memory} {a : Word} {v : BitVec 64}
    (inside : ∀ j < 8, m' (a+BitVec.ofNat 32 j) = v.extractLsb' (8*j) 8)
    (outside : ∀ b, b ≠ a → b ≠ a+1#32 → b ≠ a+2#32 → b ≠ a+3#32 → b ≠ a+4#32 → b ≠ a+5#32 → b ≠ a+6#32 → b ≠ a+7#32 →
      m' b = m b) : m' = write64 m a v := by
  funext b
  by_cases within : ∃ j < 8, b = a+BitVec.ofNat 32 j
  · obtain ⟨j,below,rfl⟩ := within
    rw [inside j below]
    interval_cases j <;> simp [write64,write32,BitVec.add_assoc,extract_extract]
  · have other : ∀ j < 8, b ≠ a+BitVec.ofNat 32 j := fun j below same => within ⟨j,below,same⟩
    have first : b ≠ a := fun same => other 0 (by decide) (by simpa using same)
    rw [outside b first (other 1 (by decide)) (other 2 (by decide)) (other 3 (by decide)) (other 4 (by decide))
      (other 5 (by decide)) (other 6 (by decide)) (other 7 (by decide)),write64,write32_outside,write32_outside]
    · rintro (same | same | same | same)
      · exact first same
      · exact other 1 (by decide) same
      · exact other 2 (by decide) same
      · exact other 3 (by decide) same
    · rintro (same | same | same | same)
      · exact other 4 (by decide) same
      · exact other 5 (by decide) (by simpa [BitVec.add_assoc] using same)
      · exact other 6 (by decide) (by simpa [BitVec.add_assoc] using same)
      · exact other 7 (by decide) (by simpa [BitVec.add_assoc] using same)

/-- A word that is stored in a part of memory changes that part only. -/
theorem write32_within {m : Memory} {a v : Word} {length i : Nat} (fits : a.toNat+length ≤ 2^32) (inside : i+4 ≤ length) :
    Within m (write32 m (a+BitVec.ofNat 32 i) v) a length := by
  have start := toNat_after (a := a) (i := i) (by omega)
  intro b changed
  by_contra outside
  refine changed (write32_outside (fun inWord => ?_))
  have range := (inWord_range (by omega)).mp inWord
  omega

theorem write8_within {m : Memory} {a : Word} {v : Byte} {length i : Nat} (fits : a.toNat+length ≤ 2^32)
    (inside : i < length) : Within m (write8 m (a+BitVec.ofNat 32 i) v) a length := by
  have start := toNat_after (a := a) (i := i) (by omega)
  intro b changed
  by_cases here : b = a+BitVec.ofNat 32 i
  · rw [here]
    omega
  · exact absurd (if_neg here) changed

/-- So does a descriptor. -/
theorem write64_within {m : Memory} {a : Word} {v : BitVec 64} {length i : Nat} (fits : a.toNat+length ≤ 2^32)
    (inside : i+8 ≤ length) : Within m (write64 m (a+BitVec.ofNat 32 i) v) a length := by
  rw [write64,BitVec.add_assoc,← BitVec.ofNat_add]
  exact within_trans (write32_within fits (by omega)) (write32_within fits (by omega))

/-- A table whose entries are descriptors: one is stored, and the others stay. -/
theorem read64_table {m : Memory} {a : Word} {v : BitVec 64} {length i j : Nat} (fits : a.toNat+8*length ≤ 2^32)
    (first : i < length) (second : j < length) :
    read64 (write64 m (a+BitVec.ofNat 32 (8*i)) v) (a+BitVec.ofNat 32 (8*j)) =
      if i = j then v else read64 m (a+BitVec.ofNat 32 (8*j)) := by
  by_cases same : i = j
  · rw [if_pos same,same,read64_write64]
  · have here := toNat_after (a := a) (i := 8*i) (by omega)
    have there := toNat_after (a := a) (i := 8*j) (by omega)
    have changes : Within m (write64 m (a+BitVec.ofNat 32 (8*i)) v) (a+BitVec.ofNat 32 (8*i)) 8 := by
      simpa using write64_within (m := m) (v := v) (i := 0) (show (a+BitVec.ofNat 32 (8*i)).toNat+8 ≤ 2^32 by omega) (by omega)
    have apart : Beside (a+BitVec.ofNat 32 (8*i)) 8 (a+BitVec.ofNat 32 (8*j)) 8 := by
      rw [Beside]
      omega
    rw [if_neg same]
    simpa using agree_read64 (i := 0) (within_agree changes apart) (by omega) (by omega)

end SoKernel.Segmentation
