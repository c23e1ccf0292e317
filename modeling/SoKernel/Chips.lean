import Mathlib.Data.Fintype.Basic
import Mathlib.Data.List.FinRange

/-!
Chips of a PC. The 8259A interrupt controller has fixed priorities and is fully nested:
an input is requested if it is not masked and nothing of its own or of a higher priority
is in service. A PC has two of them; the second one asks through an input of the first.
Rotating priorities, polling and the special mask mode are left out. Of the 8254 timer,
counter 0 is modelled, as far as it is programmed.
-/
namespace SoKernel.Chips

/-- The inputs of a chip are counted from 0. -/
scoped instance eight_ne_zero : @NeZero Nat Zero.ofOfNat0 8 := ⟨Nat.succ_ne_zero 7⟩

/-- What the next byte at the data port is. -/
inductive Expects
  | icw2
  | icw3
  | icw4
  | mask
deriving DecidableEq

structure Chip where
  /-- The inputs that have asked. -/
  irr : Finset (Fin 8)
  /-- The inputs in service. -/
  isr : Finset (Fin 8)
  imr : BitVec 8
  icw1 : BitVec 8
  icw2 : BitVec 8
  icw3 : BitVec 8
  icw4 : BitVec 8
  expects : Expects
deriving DecidableEq

/-- The input of the highest priority. -/
def first (inputs : Finset (Fin 8)) : Option (Fin 8) := (List.finRange 8).find? (· ∈ inputs)

namespace Chip
variable (c : Chip)

/-! ### Commands -/

/-- ICW1: the set-up starts, and what went before is forgotten. -/
def restart (b : BitVec 8) : Chip :=
  { c with
    irr := ∅
    isr := ∅
    imr := 0#8
    icw1 := b
    icw4 := if b.getLsbD 0 then c.icw4 else 0#8
    expects := .icw2 }

/-- What follows ICW3, or ICW2 if there is one chip only. -/
def afterCascade : Expects := if c.icw1.getLsbD 0 then .icw4 else .mask

/-- The end of the interrupt of the highest priority that is in service. -/
def endOfInterrupt : Chip :=
  match first c.isr with
  | some i => { c with isr := c.isr.erase i }
  | none => c

/-- A byte at the command port. -/
def command (b : BitVec 8) : Chip :=
  if b.getLsbD 4 then c.restart b
  else if b.getLsbD 3 then c
  else if b.extractLsb' 5 3 = 1#3 then c.endOfInterrupt
  else if b.extractLsb' 5 3 = 3#3 then { c with isr := c.isr.erase (b.extractLsb' 0 3).toFin }
  else c

/-- A byte at the data port. -/
def data (b : BitVec 8) : Chip :=
  match c.expects with
  | .icw2 => { c with icw2 := b, expects := if c.icw1.getLsbD 1 then c.afterCascade else .icw3 }
  | .icw3 => { c with icw3 := b, expects := c.afterCascade }
  | .icw4 => { c with icw4 := b, expects := .mask }
  | .mask => { c with imr := b }

/-! ### Interrupts -/

/-- Set up to give vectors to an 8086. -/
def Ready : Prop := c.expects = .mask ∧ c.icw4.getLsbD 0 = true

instance : Decidable c.Ready := inferInstanceAs (Decidable (_ ∧ _))

/-- Inputs are in service until the processor says that they are not. -/
def Manual : Prop := c.icw4.getLsbD 1 = false

/-- The input may interrupt. -/
def Open (i : Fin 8) : Prop := c.imr.getLsbD i = false

instance (i : Fin 8) : Decidable (c.Open i) := inferInstanceAs (Decidable (_ = _))

/-- The input that the chip asks the processor, or the other chip, to serve. -/
def request : Option (Fin 8) := first (c.irr.filter (fun i => c.Open i ∧ ∀ j ∈ c.isr, i < j))

def vector (i : Fin 8) : BitVec 8 := (c.icw2 &&& 0xF8#8) ||| BitVec.ofNat 8 i

def ask (i : Fin 8) : Chip := { c with irr := insert i c.irr }
/-- The device does not ask any more. -/
def withdraw (i : Fin 8) : Chip := { c with irr := c.irr.erase i }

def serve (i : Fin 8) : Chip :=
  { c with irr := c.irr.erase i, isr := if c.icw4.getLsbD 1 then c.isr else insert i c.isr }

/-- The chip gives a vector. If the request is gone, it gives that of input 7. -/
def answer : BitVec 8 × Chip :=
  match c.request with
  | some i => (c.vector i,c.serve i)
  | none => (c.vector 7,c)

end Chip

/-! ### The pair -/

structure Pair where
  master : Chip
  slave : Chip
deriving DecidableEq

/-- The input of the master to which the slave is wired. -/
def cascade : Fin 8 := 2

/-- An input of the pair. -/
inductive Input
  | master (i : Fin 8)
  | slave (i : Fin 8)
deriving DecidableEq

namespace Pair
variable (p : Pair)

/-- The master, with the slave at its input. -/
def wired : Chip :=
  { p.master with
    irr := if p.slave.request.isSome then insert cascade p.master.irr else p.master.irr.erase cascade }

/-- What the pair asks the processor to serve. -/
def request : Option (Fin 8) := p.wired.request

/-- The processor takes an interrupt. -/
def acknowledge : Option (BitVec 8 × Pair) :=
  if p.master.Ready ∧ p.slave.Ready then
    match p.request with
    | none => some (p.master.vector 7,p)
    | some i =>
      if i = cascade ∧ p.master.icw3.getLsbD cascade ∧ (p.slave.icw3.extractLsb' 0 3).toFin = cascade then
        some (p.slave.answer.1,⟨p.master.serve i,p.slave.answer.2⟩)
      else some (p.master.vector i,⟨p.master.serve i,p.slave⟩)
  else none

def ask : Input → Pair
  | .master i => { p with master := p.master.ask i }
  | .slave i => { p with slave := p.slave.ask i }

def withdraw : Input → Pair
  | .master i => { p with master := p.master.withdraw i }
  | .slave i => { p with slave := p.slave.withdraw i }

end Pair

/-! ### Requests -/

theorem first_mem {inputs : Finset (Fin 8)} {i : Fin 8} (found : first inputs = some i) : i ∈ inputs := by
  simpa using List.find?_some found

theorem first_none {inputs : Finset (Fin 8)} : first inputs = none ↔ inputs = ∅ := by
  simp [first,Finset.eq_empty_iff_forall_notMem]

theorem first_singleton (i : Fin 8) : first {i} = some i := by
  revert i
  decide

/-- No input comes before the one that is found. -/
theorem first_le {inputs : Finset (Fin 8)} {i j : Fin 8} (found : first inputs = some i) (asks : j ∈ inputs) : i ≤ j := by
  obtain ⟨_,before,after,split,none⟩ := List.find?_eq_some_iff_append.mp found
  by_contra later
  have sorted : (before ++ i :: after).Pairwise (· < ·) := split ▸ List.pairwise_lt_finRange 8
  have member : j ∈ before ++ i :: after := split ▸ List.mem_finRange j
  rcases List.mem_append.mp member with early | late
  · exact absurd (by simpa using none j early) (not_not.mpr asks)
  · rcases List.mem_cons.mp late with same | after
    · exact later (same ▸ le_refl _)
    · exact later (le_of_lt (List.rel_of_pairwise_cons (List.pairwise_append.mp sorted).2.1 after))

section
variable {c : Chip} {i : Fin 8}

theorem request_some (asks : c.request = some i) : i ∈ c.irr ∧ c.Open i ∧ ∀ j ∈ c.isr, i < j := by
  simpa using first_mem asks

/-- A chip whose inputs are all masked never asks. -/
theorem request_masked (masked : ∀ i, ¬ c.Open i) : c.request = none := by
  refine first_none.mpr (Finset.filter_eq_empty_iff.mpr ?_)
  exact fun i _ both => masked i both.1

/-- When nothing is in service, every input that has asked and is not masked waits for
    those of a higher priority only. -/
theorem request_idle (idle : c.isr = ∅) (asked : i ∈ c.irr) (opened : c.Open i) : ∃ j ≤ i, c.request = some j := by
  have waiting : i ∈ c.irr.filter (fun i => c.Open i ∧ ∀ j ∈ c.isr, i < j) := by simp [asked,opened,idle]
  cases asks : c.request with
  | none =>
    rw [first_none.mp asks] at waiting
    simp at waiting
  | some j => exact ⟨j,first_le asks waiting,rfl⟩

/-- The end of the only interrupt in service. -/
theorem endOfInterrupt_only (only : c.isr = {i}) : c.endOfInterrupt = { c with isr := ∅ } := by
  rw [Chip.endOfInterrupt,only,first_singleton]
  simp

/-- Nothing is in service, and nothing ends. -/
theorem endOfInterrupt_idle (idle : c.isr = ∅) : c.endOfInterrupt = c := by
  rw [Chip.endOfInterrupt,first_none.mpr idle]

end

/-! ### Serving one interrupt at a time -/

/-- The master gives vectors, and the slave keeps quiet. -/
structure Alone (p : Pair) : Prop where
  master : p.master.Ready
  slave : p.slave.Ready
  manual : p.master.Manual
  masked : ∀ i, ¬ p.slave.Open i
  cascade : ¬ p.master.Open cascade

/-- The pair when the processor has taken an interrupt: of the input, or of none. -/
def Pair.taken (p : Pair) : Option (Fin 8) → Pair
  | some i => { p with master := { p.master with irr := p.master.irr.erase i, isr := {i} } }
  | none => p

/-- The vector of an input, or of an interrupt that is gone. -/
def Pair.gives (p : Pair) (i : Option (Fin 8)) : BitVec 8 := p.master.vector (i.getD 7)

section
variable {p : Pair} (alone : Alone p)
include alone

theorem request_alone {i : Fin 8} (asks : p.request = some i) : i ∈ p.master.irr ∧ p.master.Open i ∧ i ≠ cascade := by
  obtain ⟨asked,opened,_⟩ := request_some asks
  have other : i ≠ cascade := fun same => alone.cascade (same ▸ opened)
  rw [Pair.wired,request_masked alone.masked] at asked
  exact ⟨Finset.mem_of_mem_erase asked,opened,other⟩

/-- When nothing is in service, an input of the master that has asked and is not masked
    is asked for, or one of a higher priority. -/
theorem request_waits (idle : p.master.isr = ∅) {i : Fin 8} (asked : i ∈ p.master.irr) (opened : p.master.Open i) :
    ∃ j ≤ i, p.request = some j := by
  have other : i ≠ cascade := fun same => alone.cascade (same ▸ opened)
  refine request_idle (c := p.wired) idle ?_ opened
  rw [Pair.wired,request_masked alone.masked]
  exact Finset.mem_erase.mpr ⟨other,asked⟩

/-- When nothing is in service, the processor is given what the pair asks for, which is
    then in service alone. -/
theorem acknowledge_idle (idle : p.master.isr = ∅) :
    p.acknowledge = some (p.gives p.request,p.taken p.request) := by
  rw [Pair.acknowledge,if_pos ⟨alone.master,alone.slave⟩]
  cases asks : p.request with
  | none => rfl
  | some i =>
    obtain ⟨_,_,other⟩ := request_alone alone asks
    have served : p.master.serve i = { p.master with irr := p.master.irr.erase i, isr := {i} } := by
      rw [Chip.serve,if_neg (Bool.eq_false_iff.mp alone.manual),idle]
      rfl
    simp [other,Pair.gives,Pair.taken,served]

end

/-! ### The timer -/

/-- Counter 0 of the timer. -/
structure Counter where
  control : BitVec 8
  /-- The low byte of a count whose high byte is to come. -/
  low : Option (BitVec 8)
  count : BitVec 16
deriving DecidableEq

namespace Counter
variable (t : Counter)

/-- A control word. Those for other counters, and those that only latch the count, do
    not change the counter. -/
def command (b : BitVec 8) : Counter :=
  if b.extractLsb' 6 2 = 0#2 ∧ b.extractLsb' 4 2 ≠ 0#2 then { t with control := b, low := none } else t

/-- A byte of the count: the low byte only, the high byte only, or the low byte before
    the high byte. -/
def data (b : BitVec 8) : Counter :=
  if t.control.extractLsb' 4 2 = 1#2 then { t with count := 0#8 ++ b }
  else if t.control.extractLsb' 4 2 = 2#2 then { t with count := b ++ 0#8 }
  else
    match t.low with
    | none => { t with low := some b }
    | some low => { t with low := none, count := b ++ low }


end Counter

end SoKernel.Chips
