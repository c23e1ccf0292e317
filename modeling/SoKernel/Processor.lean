import SoKernel.Process
import SoKernel.Stack

/-!
The processor as far as the assembly files of the kernel use it, and the code in
those files: the entry stubs of `interrupt_handlers.s` and `syscall_handler.s` and
the routines of `context_switch.s`. A kernel stack is mapped to itself in the
directory of its process, so the stack is accessed at its physical address.
-/
namespace SoKernel.Processor
open SoKernel.Words SoKernel.Pages SoKernel.Stack SoKernel.Process
set_option linter.unusedSimpArgs false

structure Regs where
  eax : Word
  ebx : Word
  ecx : Word
  edx : Word
  esi : Word
  edi : Word
  ebp : Word
  esp : Word
  eip : Word
  eflags : Word
  cs : Word
  ss : Word
  ds : Word
  es : Word
  fs : Word
  gs : Word
deriving DecidableEq

/-- The registers that instructions name. -/
inductive Reg
  | eax | ebx | ecx | edx | esi | edi | ebp

inductive DataSeg
  | ds | es | fs | gs

def Regs.get (r : Regs) : Reg → Word
  | .eax => r.eax
  | .ebx => r.ebx
  | .ecx => r.ecx
  | .edx => r.edx
  | .esi => r.esi
  | .edi => r.edi
  | .ebp => r.ebp

def Regs.set (r : Regs) (v : Word) : Reg → Regs
  | .eax => { r with eax := v }
  | .ebx => { r with ebx := v }
  | .ecx => { r with ecx := v }
  | .edx => { r with edx := v }
  | .esi => { r with esi := v }
  | .edi => { r with edi := v }
  | .ebp => { r with ebp := v }

def Regs.setSeg (r : Regs) (v : Word) : DataSeg → Regs
  | .ds => { r with ds := v }
  | .es => { r with es := v }
  | .fs => { r with fs := v }
  | .gs => { r with gs := v }

/-- The selector is one of user mode. -/
def Ring3 (cs : Word) : Prop := cs &&& 3#32 = 3#32
instance (cs : Word) : Decidable (Ring3 cs) := inferInstanceAs (Decidable (_ = _))

/-- The addresses that the linker gives to the places where assembly code goes on
    after a call, to the trampoline, and to the `esp` fields of the process table. -/
structure Linked where
  interrupt_return : Word
  syscall_return : Word
  switch_context_return : Word
  process_start_trampoline : Word
  esp_field : Slot → Word
  distinct : Function.Injective esp_field

/-- The registers, and what the kernel and the processor share: memory, CR3 and the
    stack pointer of the TSS. -/
structure Cpu where
  regs : Regs
  kernel : Kernel

namespace Cpu

def mem (c : Cpu) : Memory := c.kernel.phys.mem
def setMem (c : Cpu) (m : Memory) : Cpu := { c with kernel := c.kernel.setMem m }
/-- The word at the top of the stack. -/
def top (c : Cpu) : Word := read32 c.mem c.regs.esp
def setEsp (c : Cpu) (esp : Word) : Cpu := { c with regs := { c.regs with esp := esp } }

def push (c : Cpu) (v : Word) : Cpu := (c.setMem (write32 c.mem (c.regs.esp-4#32) v)).setEsp (c.regs.esp-4#32)
def pushAll (c : Cpu) (ws : List Word) : Cpu :=
  (c.setMem (push_all c.mem c.regs.esp ws).1).setEsp (push_all c.mem c.regs.esp ws).2

end Cpu

inductive Instr
  | push (r : Reg)
  | push_dword (v : Word)
  | push_esp
  | pushfd
  | pop (r : Reg)
  | popfd
  /-- `mov r, [esp + offset]` -/
  | mov_load (r : Reg) (offset : Word)
  /-- `mov [r], esp` -/
  | mov_store_esp (r : Reg)
  | mov_cr3 (r : Reg)
  | mov_esp (r : Reg)
  | mov_ax (v : Word)
  | mov_seg (s : DataSeg)
  | add_esp (n : Word)
  /-- A call of C code; the address is that of the next instruction. -/
  | call (after : Word)
  | ret
  | iret

/-- The slot whose `esp` field is at the address. -/
def slotAt (l : Linked) (a : Word) : Option Slot := (List.finRange MAX_PROCESSES).find? (fun i => l.esp_field i = a)

/-- A word is stored in the process table or in other memory. -/
def Cpu.storeField (l : Linked) (c : Cpu) (a v : Word) : Cpu :=
  match slotAt l a with
  | some i => { c with kernel := c.kernel.setProc i { c.kernel.procs i with esp := v } }
  | none => c.setMem (write32 c.mem a v)

/-- `iret` in the kernel. Only on the way to user mode it loads the stack too. -/
def Cpu.iret (c : Cpu) : Cpu :=
  let sp := c.regs.esp
  let cs := read32 c.mem (sp+4#32)
  let r := { c.regs with eip := c.top, cs := cs, eflags := read32 c.mem (sp+8#32) }
  if Ring3 cs then { c with regs := { r with esp := read32 c.mem (sp+12#32), ss := read32 c.mem (sp+16#32) } }
  else { c with regs := { r with esp := sp+12#32 } }

def exec (l : Linked) (c : Cpu) : Instr → Cpu
  | .push r => c.push (c.regs.get r)
  | .push_dword v => c.push v
  | .push_esp => c.push c.regs.esp
  | .pushfd => c.push c.regs.eflags
  | .pop r => { c with regs := { c.regs.set c.top r with esp := c.regs.esp+4#32 } }
  | .popfd => { c with regs := { c.regs with eflags := c.top, esp := c.regs.esp+4#32 } }
  | .mov_load r offset => { c with regs := c.regs.set (read32 c.mem (c.regs.esp+offset)) r }
  | .mov_store_esp r => c.storeField l (c.regs.get r) c.regs.esp
  | .mov_cr3 r => { c with kernel := { c.kernel with cr3 := c.regs.get r } }
  | .mov_esp r => c.setEsp (c.regs.get r)
  | .mov_ax v => { c with regs := { c.regs with eax := (c.regs.eax &&& 0xFFFF0000#32) ||| v } }
  | .mov_seg s => { c with regs := c.regs.setSeg (c.regs.eax &&& 0xFFFF#32) s }
  | .add_esp n => c.setEsp (c.regs.esp+n)
  | .call after => c.push after
  | .ret => { c with regs := { c.regs with eip := c.top, esp := c.regs.esp+4#32 } }
  | .iret => c.iret

def execs (l : Linked) (c : Cpu) (code : List Instr) : Cpu := code.foldl (exec l) c

/-! ### context_switch.s -/

/-- The part of `switch_context` that runs on the old stack. -/
def switch_context_save : List Instr :=
  [.push .ebp,.push .ebx,.push .esi,.push .edi,.pushfd,
    .mov_load .eax 24#32,.mov_load .ecx 28#32,.mov_load .edx 32#32,
    .mov_store_esp .eax,.mov_cr3 .edx,.mov_esp .ecx]

/-- The part of `switch_context` and of `jump_to_process` that runs on the new stack. -/
def restore : List Instr := [.popfd,.pop .edi,.pop .esi,.pop .ebx,.pop .ebp,.ret]

def switch_context_code : List Instr := switch_context_save++restore

/-- `jump_to_process` up to `popfd`. -/
def jump_to_process_load : List Instr :=
  [.mov_load .ecx 4#32,.mov_load .edx 8#32,.mov_cr3 .edx,.mov_esp .ecx]

def process_start_trampoline_code : List Instr :=
  [.mov_ax 0x23#32,.mov_seg .ds,.mov_seg .es,.mov_seg .fs,.mov_seg .gs,.iret]

/-! ### Interrupts and system calls -/

/-- The flags that an interrupt gate leaves alone: not TF, IF, NT, RF and VM. -/
def GATE_FLAGS : Word := 0xFFFCBCFF#32
def KERNEL_CODE_SEGMENT : Word := 0x08#32
def KERNEL_DATA_SEGMENT : Word := 0x10#32

/-- The processor takes an interrupt. From user mode it goes to the stack of the
    TSS and saves the user's stack there. Some interrupts have an error code. -/
def interrupt (c : Cpu) (error_code : List Word) : Cpu :=
  let r := c.regs
  if Ring3 r.cs then
    let c := (c.setEsp c.kernel.esp0).pushAll ([r.ss,r.esp,r.eflags,r.cs,r.eip]++error_code)
    { c with regs := { c.regs with
        eflags := r.eflags &&& GATE_FLAGS, cs := KERNEL_CODE_SEGMENT, ss := KERNEL_DATA_SEGMENT } }
  else
    let c := c.pushAll ([r.eflags,r.cs,r.eip]++error_code)
    { c with regs := { c.regs with eflags := r.eflags &&& GATE_FLAGS, cs := KERNEL_CODE_SEGMENT } }

/-- The vectors with an entry in the table of `idt.c`, apart from `int 0x80`. -/
abbrev Vector := Fin 48

/-- The exceptions for which the processor pushes an error code. -/
def HasErrorCode (n : Vector) : Prop := n = 8 ∨ (10 ≤ n ∧ n ≤ 14) ∨ n = 17
instance (n : Vector) : Decidable (HasErrorCode n) := inferInstanceAs (Decidable (_ ∨ _))

/-- The vectors declared with `error_code_interrupt_handler`. -/
def error_code_interrupt_handlers : List Vector := [8,10,11,12,13,14,17]

def common_interrupt_handler (l : Linked) : List Instr :=
  [.push .eax,.push .ebx,.push .ecx,.push .edx,.push .esi,.push .edi,.push .ebp,.call l.interrupt_return]

/-- The stub of a vector, up to its call of `interrupt_handler`. -/
def interrupt_handler_stub (l : Linked) (n : Vector) : List Instr :=
  (if n ∈ error_code_interrupt_handlers then [.push_dword (BitVec.ofNat 32 n)]
    else [.push_dword 0#32,.push_dword (BitVec.ofNat 32 n)])++common_interrupt_handler l

/-- The stub after the call. -/
def common_interrupt_return : List Instr :=
  [.pop .ebp,.pop .edi,.pop .esi,.pop .edx,.pop .ecx,.pop .ebx,.pop .eax,.add_esp 8#32,.iret]

/-- `syscall_handler_128` up to its call of `syscall_dispatch`. -/
def syscall_handler_128 (l : Linked) : List Instr :=
  [.push .eax,.push .ebx,.push .ecx,.push .edx,.push .esi,.push .edi,.push .ebp,.push_esp,.call l.syscall_return]

def syscall_handler_return : List Instr :=
  [.add_esp 4#32,.pop .ebp,.pop .edi,.pop .esi,.pop .edx,.pop .ecx,.pop .ebx,.pop .eax,.iret]

/-- An interrupt, up to the first instruction of `interrupt_handler`. -/
def arrive (l : Linked) (c : Cpu) (n : Vector) (error_code : Word) : Cpu :=
  execs l (interrupt c (if HasErrorCode n then [error_code] else [])) (interrupt_handler_stub l n)

/-- `int 0x80`, up to the first instruction of `syscall_dispatch`. -/
def arrive_syscall (l : Linked) (c : Cpu) : Cpu := execs l (interrupt c []) (syscall_handler_128 l)

/-- The C function returns; `none` when not to the stub that called it. -/
def leave (l : Linked) (after : Word) (code : List Instr) (c : Cpu) : Option Cpu :=
  let c := exec l c .ret
  if c.regs.eip = after then some (execs l c code) else none

end SoKernel.Processor
