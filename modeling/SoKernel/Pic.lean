import SoKernel.Chips
import SoKernel.Words

/-!
`pic.c` and `pit.c`: the drivers of the interrupt controllers and of the timer, as what
they do to the chips through their ports.
-/
namespace SoKernel.Pic
open SoKernel.Words SoKernel.Chips
set_option linter.unusedSimpArgs false

/-! ### Ports -/

structure Ports where
  pics : Pair
  timer : Counter

def PIC1_PORT_A : Nat := 0x20
def PIC1_PORT_B : Nat := 0x21
def PIC2_PORT_A : Nat := 0xA0
def PIC2_PORT_B : Nat := 0xA1
def PIT_COMMAND_PORT : Nat := 0x43
def PIT_CHANNEL0_PORT : Nat := 0x40

namespace Ports
variable (d : Ports)

def outb (port : Nat) (b : Byte) : Ports :=
  if port = PIC1_PORT_A then { d with pics := { d.pics with master := d.pics.master.command b } }
  else if port = PIC1_PORT_B then { d with pics := { d.pics with master := d.pics.master.data b } }
  else if port = PIC2_PORT_A then { d with pics := { d.pics with slave := d.pics.slave.command b } }
  else if port = PIC2_PORT_B then { d with pics := { d.pics with slave := d.pics.slave.data b } }
  else if port = PIT_COMMAND_PORT then { d with timer := d.timer.command b }
  else if port = PIT_CHANNEL0_PORT then { d with timer := d.timer.data b }
  else d

/-- The data port of the first controller gives its mask; nothing else is read. -/
def inb (port : Nat) : Byte := if port = PIC1_PORT_B then d.pics.master.imr else 0xFF#8

@[simp] theorem outb_pic1_a (b : Byte) :
    d.outb PIC1_PORT_A b = { d with pics := { d.pics with master := d.pics.master.command b } } := rfl
@[simp] theorem outb_pic1_b (b : Byte) :
    d.outb PIC1_PORT_B b = { d with pics := { d.pics with master := d.pics.master.data b } } := rfl
@[simp] theorem outb_pic2_a (b : Byte) :
    d.outb PIC2_PORT_A b = { d with pics := { d.pics with slave := d.pics.slave.command b } } := rfl
@[simp] theorem outb_pic2_b (b : Byte) :
    d.outb PIC2_PORT_B b = { d with pics := { d.pics with slave := d.pics.slave.data b } } := rfl
@[simp] theorem outb_pit_command (b : Byte) : d.outb PIT_COMMAND_PORT b = { d with timer := d.timer.command b } := rfl
@[simp] theorem outb_pit_channel0 (b : Byte) : d.outb PIT_CHANNEL0_PORT b = { d with timer := d.timer.data b } := rfl
@[simp] theorem inb_pic1_b : d.inb PIC1_PORT_B = d.pics.master.imr := rfl

end Ports

/-! ### The interrupt controllers -/

def PIC1_START_INTERRUPT : Byte := 0x20#8
def PIC2_START_INTERRUPT : Byte := 0x28#8
def PIC2_END_INTERRUPT : Byte := PIC2_START_INTERRUPT+7#8
def PIC_ICW1_INIT : Byte := 0x11#8
def PIC_ICW4_8086 : Byte := 0x01#8
def PIC_ACK : Byte := 0x20#8

def pic_remap (d : Ports) : Ports :=
  let d := d.outb PIC1_PORT_A PIC_ICW1_INIT
  let d := d.outb PIC2_PORT_A PIC_ICW1_INIT
  let d := d.outb PIC1_PORT_B PIC1_START_INTERRUPT
  let d := d.outb PIC2_PORT_B PIC2_START_INTERRUPT
  let d := d.outb PIC1_PORT_B 0x04#8
  let d := d.outb PIC2_PORT_B 0x02#8
  let d := d.outb PIC1_PORT_B PIC_ICW4_8086
  let d := d.outb PIC2_PORT_B PIC_ICW4_8086
  let d := d.outb PIC1_PORT_B 0xFD#8
  d.outb PIC2_PORT_B 0xFF#8

def pic_acknowledge (interrupt : Word) (d : Ports) : Ports :=
  if interrupt < PIC1_START_INTERRUPT.setWidth 32 ∨ PIC2_END_INTERRUPT.setWidth 32 < interrupt then d
  else
    let d := if PIC2_START_INTERRUPT.setWidth 32 ≤ interrupt then d.outb PIC2_PORT_A PIC_ACK else d
    d.outb PIC1_PORT_A PIC_ACK

/-- A controller that has been set up for an 8086. -/
structure Configured (c : Chip) (start cascade mask : Byte) : Prop where
  expects : c.expects = .mask
  icw2 : c.icw2 = start
  icw3 : c.icw3 = cascade
  icw4 : c.icw4 = PIC_ICW4_8086
  imr : c.imr = mask

/-- The controllers as the kernel sets them up, with a mask for the first. -/
structure Programmed (p : Pair) (mask : Byte) : Prop where
  master : Configured p.master PIC1_START_INTERRUPT 0x04#8 mask
  slave : Configured p.slave PIC2_START_INTERRUPT 0x02#8 0xFF#8

/-- Whatever the controllers were doing, `pic_remap` sets them up, with the keyboard
    alone not masked and with nothing in service. -/
theorem pic_remap_programs (d : Ports) :
    Programmed (pic_remap d).pics 0xFD#8 ∧ (pic_remap d).pics.master.isr = ∅ ∧ (pic_remap d).pics.slave.isr = ∅ := by
  have remapped : pic_remap d =
      { d with
        pics := ⟨⟨∅,∅,0xFD#8,PIC_ICW1_INIT,PIC1_START_INTERRUPT,0x04#8,PIC_ICW4_8086,.mask⟩,
          ⟨∅,∅,0xFF#8,PIC_ICW1_INIT,PIC2_START_INTERRUPT,0x02#8,PIC_ICW4_8086,.mask⟩⟩ } := by
    simp [pic_remap,Chip.command,Chip.restart,Chip.data,Chip.afterCascade,PIC_ICW1_INIT]
  rw [remapped]
  exact ⟨⟨⟨rfl,rfl,rfl,rfl,rfl⟩,⟨rfl,rfl,rfl,rfl,rfl⟩⟩,rfl,rfl⟩

/-- Requests and service do not touch what has been set up. -/
theorem configured_registers {c : Chip} {start cascade mask : Byte} (configured : Configured c start cascade mask)
    (irr isr : Finset (Fin 8)) : Configured { c with irr := irr, isr := isr } start cascade mask :=
  ⟨configured.expects,configured.icw2,configured.icw3,configured.icw4,configured.imr⟩

theorem configured_ready {c : Chip} {start cascade mask : Byte} (configured : Configured c start cascade mask) : c.Ready := by
  refine ⟨configured.expects,?_⟩
  rw [configured.icw4]
  decide

theorem open_iff {c : Chip} {start cascade mask : Byte} (configured : Configured c start cascade mask) (i : Fin 8) :
    c.Open i ↔ mask.getLsbD i = false := by
  rw [Chip.Open,configured.imr]

section
variable {p : Pair} {mask : Byte} (programmed : Programmed p mask)
include programmed

/-- The second controller is masked, and so is the input of the first to which it is
    wired. -/
theorem programmed_alone (masked : mask.getLsbD cascade = true) : Alone p := by
  refine ⟨configured_ready programmed.master,configured_ready programmed.slave,?_,?_,?_⟩
  · rw [Chip.Manual,programmed.master.icw4]
    decide
  · intro i
    rw [open_iff programmed.slave]
    revert i
    decide
  · rw [open_iff programmed.master,masked]
    decide

/-- Input `i` interrupts with vector `32+i`. -/
theorem programmed_gives (i : Option (Fin 8)) : p.gives i = BitVec.ofNat 8 (32+(i.getD 7).val) := by
  have vectors : ∀ j : Fin 8, (PIC1_START_INTERRUPT &&& 0xF8#8) ||| BitVec.ofNat 8 j = BitVec.ofNat 8 (32+j.val) := by
    decide
  rw [Pair.gives,Chip.vector,programmed.master.icw2]
  exact vectors _

end

/-- `pic_acknowledge` ends interrupts and changes nothing else. -/
theorem pic_acknowledge_ends (interrupt : Word) (d : Ports) :
    pic_acknowledge interrupt d =
      if 32#32 ≤ interrupt ∧ interrupt ≤ 47#32 then
        { d with
          pics := ⟨d.pics.master.endOfInterrupt,
            if 40#32 ≤ interrupt then d.pics.slave.endOfInterrupt else d.pics.slave⟩ }
      else d := by
  have bounds : (interrupt < PIC1_START_INTERRUPT.setWidth 32 ∨ PIC2_END_INTERRUPT.setWidth 32 < interrupt) ↔
      ¬ (32#32 ≤ interrupt ∧ interrupt ≤ 47#32) := by
    rw [not_and_or,BitVec.not_le,BitVec.not_le]
    rfl
  by_cases inside : 32#32 ≤ interrupt ∧ interrupt ≤ 47#32
  · rw [pic_acknowledge,if_neg (bounds.not.mpr (not_not.mpr inside)),if_pos inside]
    by_cases second : 40#32 ≤ interrupt
    · rw [if_pos second,if_pos (by exact second)]
      rfl
    · rw [if_neg second,if_neg (by exact second)]
      rfl
  · rw [pic_acknowledge,if_pos (bounds.mpr inside),if_neg inside]

/-! ### The timer -/

def PIT_BASE_FREQ : Word := 1193182#32

/-- The count that `pit_init` loads. -/
def divisor (freq_hz : Word) : Word :=
  let freq_hz := if freq_hz = 0#32 then 1#32 else freq_hz
  let divisor := PIT_BASE_FREQ / freq_hz
  let divisor := if 0xFFFF#32 < divisor then 0xFFFF#32 else divisor
  if divisor = 0#32 then 1#32 else divisor

def pit_init (freq_hz : Word) (d : Ports) : Ports :=
  let divisor := divisor freq_hz
  let d := d.outb PIT_COMMAND_PORT 0x36#8
  let d := d.outb PIT_CHANNEL0_PORT ((divisor &&& 0xFF#32).setWidth 8)
  let d := d.outb PIT_CHANNEL0_PORT (((divisor >>> 8) &&& 0xFF#32).setWidth 8)
  let mask := d.inb PIC1_PORT_B &&& ~~~0x01#8
  d.outb PIC1_PORT_B mask

/-- What `pit_init` leaves: the timer in mode 3 with the divisor as its binary count, and
    its interrupt not masked any more. -/
theorem pit_init_programs (freq_hz : Word) {d : Ports} (ready : d.pics.master.expects = .mask) :
    pit_init freq_hz d =
      ⟨{ d.pics with master := { d.pics.master with imr := d.pics.master.imr &&& 0xFE#8 } },
        ⟨0x36#8,none,(divisor freq_hz).setWidth 16⟩⟩ := by
  have whole : ∀ v : Byte, v &&& 0xFF#8 = v := fun v => BitVec.and_allOnes
  have count : ∀ v : Word, (v >>> 8).setWidth 8 ++ v.setWidth 8 = v.setWidth 16 := by
    intro v
    refine BitVec.eq_of_getLsbD_eq (fun j inside => ?_)
    rw [BitVec.getLsbD_append]
    by_cases low : j < 8
    · simp [low,inside]
    · simp [low,inside,show j-8 < 8 by omega,show 8+(j-8) = j by omega]
  simp [pit_init,Counter.command,Counter.data,Chip.data,ready,whole,count]

end SoKernel.Pic
