import SoKernel.Processor

/-!
What the assembly code leaves on a kernel stack and takes from it again: the frame
of an entry from user mode, the frame of an interrupt of the kernel itself, and the
frame of `switch_context`. The frame that `process_create` makes up for a new process
has to look like the last of these with the trampoline to return to.
-/
namespace SoKernel.StackFrames
open SoKernel.Words SoKernel.Pages SoKernel.Stack SoKernel.Process SoKernel.Processor
set_option linter.unusedSimpArgs false

/-- Why the processor has entered the kernel. -/
inductive Kind
  | interrupt (n : Vector) (error_code : Word)
  | syscall
deriving DecidableEq

/-- An entry from user mode: the registers of that moment, and the value that `eax` is
    to have on the way out. -/
structure Entry where
  kind : Kind
  regs : Regs
  eax : Word

/-- The error code that is on the stack, which is a dummy for most interrupts. -/
def stacked_code (n : Vector) (error_code : Word) : Word := if HasErrorCode n then error_code else 0#32

namespace Entry

/-- The registers that the stubs save, the last one pushed first. -/
def saved (e : Entry) : List Word :=
  [e.regs.ebp,e.regs.edi,e.regs.esi,e.regs.edx,e.regs.ecx,e.regs.ebx,e.eax]

/-- What the processor has saved. -/
def pushed (e : Entry) : List Word := [e.regs.eip,e.regs.cs,e.regs.eflags,e.regs.esp,e.regs.ss]

/-- The words at the end of the stack `p` when the C function has been called. -/
def frame (l : Linked) (p : Word) (e : Entry) : List Word :=
  match e.kind with
  | .interrupt n error_code =>
    l.interrupt_return :: (e.saved ++ [BitVec.ofNat 32 n,stacked_code n error_code] ++ e.pushed)
  | .syscall => l.syscall_return :: slot p 1012 :: (e.saved ++ e.pushed)

/-- The word of the stack where the frame begins. -/
def bottom (e : Entry) : Nat :=
  match e.kind with
  | .interrupt _ _ => 1009
  | .syscall => 1010

theorem bottom_frame (l : Linked) (p : Word) (e : Entry) : e.bottom+(e.frame l p).length = 1024 := by
  cases kind : e.kind with
  | interrupt n error_code => simp [bottom,frame,kind,saved,pushed]
  | syscall => simp [bottom,frame,kind,saved,pushed]

end Entry

/-! ### Pushing -/

section
variable {l : Linked} {c : Cpu}

theorem push_pushAll (ws : List Word) (v : Word) : (c.pushAll ws).push v = c.pushAll (ws ++ [v]) := by
  simp only [Cpu.push,Cpu.pushAll,Cpu.setMem,Cpu.setEsp,Cpu.mem,Kernel.setMem,push_all_append]
  rfl

theorem get_pushAll (ws : List Word) (r : Reg) : (c.pushAll ws).regs.get r = c.regs.get r := by
  cases r <;> rfl

theorem pushAll_nil : c.pushAll [] = c := rfl

@[simp] theorem exec_push (ws : List Word) (r : Reg) :
    exec l (c.pushAll ws) (.push r) = c.pushAll (ws ++ [c.regs.get r]) := by
  rw [exec,push_pushAll,get_pushAll]

@[simp] theorem exec_push_dword (ws : List Word) (v : Word) :
    exec l (c.pushAll ws) (.push_dword v) = c.pushAll (ws ++ [v]) := by
  rw [exec,push_pushAll]

@[simp] theorem exec_pushfd (ws : List Word) : exec l (c.pushAll ws) .pushfd = c.pushAll (ws ++ [c.regs.eflags]) := by
  rw [exec,push_pushAll]
  rfl

@[simp] theorem exec_call (ws : List Word) (after : Word) :
    exec l (c.pushAll ws) (.call after) = c.pushAll (ws ++ [after]) := by
  rw [exec,push_pushAll]

@[simp] theorem exec_push_esp (ws : List Word) :
    exec l (c.pushAll ws) .push_esp = c.pushAll (ws ++ [(c.pushAll ws).regs.esp]) := by
  rw [exec,push_pushAll]

theorem pushAll_kernel (ws : List Word) : (c.pushAll ws).kernel = c.kernel.setMem (c.pushAll ws).mem := rfl

/-- Words pushed on a stack that is a page. -/
theorem pushAll_slot {p : Word} (aligned : PageAligned p) (ws : List Word) {j : Nat} (fits : j+ws.length ≤ 1024)
    (esp : c.regs.esp = slot p (j+ws.length)) :
    (c.pushAll ws).regs.esp = slot p j ∧ Stacked (c.pushAll ws).mem p j ws.reverse ∧
      ∀ a, Apart p j (j+ws.length) a → (c.pushAll ws).mem a = c.mem a := by
  have done := push_all_slot aligned c.mem ws fits
  rw [← esp] at done
  exact done

end

/-- The registers that the stubs push, the first one first. -/
def saved_regs : List Reg := [.eax,.ebx,.ecx,.edx,.esi,.edi,.ebp]

/-- The words that the stub of an interrupt pushes. -/
def stub_words (l : Linked) (r : Regs) (n : Vector) : List Word :=
  (if HasErrorCode n then [] else [0#32]) ++ [BitVec.ofNat 32 n] ++ saved_regs.map r.get ++ [l.interrupt_return]

theorem stub_pushes (l : Linked) (c : Cpu) (n : Vector) :
    execs l c (interrupt_handler_stub l n) = c.pushAll (stub_words l c.regs n) := by
  have vectors : ∀ n : Vector, n ∈ error_code_interrupt_handlers ↔ HasErrorCode n := by decide
  rw [← pushAll_nil (c := c)]
  by_cases code : HasErrorCode n
  · simp only [interrupt_handler_stub,vectors,code,if_true,common_interrupt_handler,execs,List.cons_append,List.nil_append,
      List.foldl_cons,List.foldl_nil,exec_push_dword,exec_push,exec_call,stub_words]
    rfl
  · simp only [interrupt_handler_stub,vectors,code,if_false,common_interrupt_handler,execs,List.cons_append,List.nil_append,
      List.foldl_cons,List.foldl_nil,exec_push_dword,exec_push,exec_call,stub_words]
    rfl

/-- The stub of a system call passes a pointer to what it has pushed. -/
theorem syscall_pushes (l : Linked) (c : Cpu) :
    execs l c (syscall_handler_128 l) =
      c.pushAll (saved_regs.map c.regs.get ++ [(c.pushAll (saved_regs.map c.regs.get)).regs.esp,l.syscall_return]) := by
  rw [← pushAll_nil (c := c)]
  simp only [syscall_handler_128,execs,List.foldl_cons,List.foldl_nil,exec_push,exec_push_esp,exec_call,List.nil_append,
    List.cons_append]
  rfl

/-- What the processor pushes when it takes an interrupt, the first word first. -/
def taken (c : Cpu) (error_code : List Word) : List Word :=
  (if Ring3 c.regs.cs then [c.regs.ss,c.regs.esp] else []) ++ [c.regs.eflags,c.regs.cs,c.regs.eip] ++ error_code

/-- Where it pushes that. -/
def taken_esp (c : Cpu) : Word := if Ring3 c.regs.cs then c.kernel.esp0 else c.regs.esp

theorem interrupt_get (c : Cpu) (error_code : List Word) (r : Reg) :
    (interrupt c error_code).regs.get r = c.regs.get r := by
  by_cases user : Ring3 c.regs.cs
  · simp only [interrupt,user,if_true]
    cases r <;> rfl
  · simp only [interrupt,user,if_false]
    cases r <;> rfl

/-- The stubs push on top of that. -/
theorem interrupt_pushAll (c : Cpu) (error_code ws : List Word) :
    ((interrupt c error_code).pushAll ws).mem = ((c.setEsp (taken_esp c)).pushAll (taken c error_code ++ ws)).mem ∧
      ((interrupt c error_code).pushAll ws).regs.esp =
        ((c.setEsp (taken_esp c)).pushAll (taken c error_code ++ ws)).regs.esp ∧
      ((interrupt c error_code).pushAll ws).kernel = c.kernel.setMem ((interrupt c error_code).pushAll ws).mem := by
  by_cases user : Ring3 c.regs.cs
  · simp only [taken,taken_esp,interrupt,user,if_true,Cpu.pushAll,Cpu.setMem,Cpu.setEsp,Cpu.mem,Kernel.setMem,
      push_all_append]
    exact ⟨rfl,rfl,trivial⟩
  · simp only [taken,taken_esp,interrupt,user,if_false,Cpu.pushAll,Cpu.setMem,Cpu.setEsp,Cpu.mem,Kernel.setMem,
      push_all_append]
    exact ⟨rfl,rfl,trivial⟩

/-! ### Entering from user mode -/

/-- The C function has been called with these words on top of the stack, which begin
    at word `j` of the page `p`; the rest of memory is as before. -/
structure Called (p : Word) (j : Nat) (ws : List Word) (c c' : Cpu) : Prop where
  kernel : c'.kernel = c.kernel.setMem c'.mem
  cs : c'.regs.cs = KERNEL_CODE_SEGMENT
  esp : c'.regs.esp = slot p j
  stacked : Stacked c'.mem p j ws
  off : ∀ a, Apart p j (j+ws.length) a → c'.mem a = c.mem a

theorem called_interrupt {c : Cpu} {p : Word} (aligned : PageAligned p) (error_code ws : List Word) {j n : Nat}
    (length : (taken c error_code ++ ws).length = n) (fits : j+n ≤ 1024) (esp : taken_esp c = slot p (j+n)) :
    Called p j (taken c error_code ++ ws).reverse c ((interrupt c error_code).pushAll ws) := by
  obtain ⟨mem,espIs,kernel⟩ := interrupt_pushAll c error_code ws
  subst length
  obtain ⟨pointer,stacked,off⟩ := pushAll_slot (c := c.setEsp (taken_esp c)) aligned _ fits esp
  refine ⟨kernel,?_,espIs.trans pointer,?_,?_⟩
  · change (interrupt c error_code).regs.cs = KERNEL_CODE_SEGMENT
    rw [interrupt]
    split <;> rfl
  · rw [mem]
    exact stacked
  · rw [List.length_reverse,mem]
    exact off

theorem map_interrupt (c : Cpu) (error_code : List Word) (rs : List Reg) :
    rs.map (interrupt c error_code).regs.get = rs.map c.regs.get :=
  List.map_congr_left (fun r _ => interrupt_get c error_code r)

theorem interrupt_enters (l : Linked) {c : Cpu} {p : Word} (aligned : PageAligned p) (user : Ring3 c.regs.cs)
    (esp0 : c.kernel.esp0 = slot p 1024) (n : Vector) (error_code : Word) :
    let e : Entry := ⟨.interrupt n error_code,c.regs,c.regs.eax⟩
    Called p e.bottom (e.frame l p) c (arrive l c n error_code) := by
  intro e
  have called := called_interrupt (c := c) aligned (if HasErrorCode n then [error_code] else []) (stub_words l c.regs n)
    (j := 1009) (n := 15) (by by_cases code : HasErrorCode n <;> simp [taken,user,code,stub_words,saved_regs]) (le_refl _)
    (by rw [taken_esp,if_pos user,esp0])
  rw [arrive,stub_pushes,stub_words,map_interrupt]
  have words : (taken c (if HasErrorCode n then [error_code] else []) ++ stub_words l c.regs n).reverse = e.frame l p := by
    by_cases code : HasErrorCode n <;>
      simp [e,taken,user,code,stub_words,saved_regs,Entry.frame,Entry.saved,Entry.pushed,stacked_code,Regs.get]
  rw [words] at called
  exact called

theorem syscall_enters (l : Linked) {c : Cpu} {p : Word} (aligned : PageAligned p) (user : Ring3 c.regs.cs)
    (esp0 : c.kernel.esp0 = slot p 1024) :
    let e : Entry := ⟨.syscall,c.regs,c.regs.eax⟩
    Called p e.bottom (e.frame l p) c (arrive_syscall l c) := by
  intro e
  have start : taken_esp c = slot p 1024 := by rw [taken_esp,if_pos user,esp0]
  have pointer := (called_interrupt aligned [] (saved_regs.map c.regs.get) (j := 1012) (n := 12)
    (by simp [taken,user,saved_regs]) (le_refl _) start).esp
  have called := called_interrupt aligned [] (saved_regs.map c.regs.get ++ [slot p 1012,l.syscall_return]) (j := 1010)
    (n := 14) (by simp [taken,user,saved_regs]) (le_refl _) start
  rw [arrive_syscall,syscall_pushes,map_interrupt,pointer]
  have words : (taken c [] ++ (saved_regs.map c.regs.get ++ [slot p 1012,l.syscall_return])).reverse = e.frame l p := by
    simp [e,taken,user,saved_regs,Entry.frame,Entry.saved,Entry.pushed,Regs.get]
  rw [words] at called
  exact called

/-! ### An interrupt of the kernel -/

/-- The words on the stack when `interrupt_handler` has been called for an interrupt
    that came in the kernel. -/
def nested_frame (l : Linked) (r : Regs) (n : Vector) (error_code : Word) : List Word :=
  [l.interrupt_return,r.ebp,r.edi,r.esi,r.edx,r.ecx,r.ebx,r.eax,BitVec.ofNat 32 n,stacked_code n error_code,
    r.eip,r.cs,r.eflags]

theorem interrupt_nests (l : Linked) {c : Cpu} {p : Word} (aligned : PageAligned p) (kernel : ¬ Ring3 c.regs.cs) {j : Nat}
    (fits : j+13 ≤ 1024) (esp : c.regs.esp = slot p (j+13)) (n : Vector) (error_code : Word) :
    Called p j (nested_frame l c.regs n error_code) c (arrive l c n error_code) := by
  have called := called_interrupt (c := c) aligned (if HasErrorCode n then [error_code] else []) (stub_words l c.regs n)
    (j := j) (n := 13) (by by_cases code : HasErrorCode n <;> simp [taken,kernel,code,stub_words,saved_regs]) fits
    (by rw [taken_esp,if_neg kernel,esp])
  rw [arrive,stub_pushes,stub_words,map_interrupt]
  have words : (taken c (if HasErrorCode n then [error_code] else []) ++ stub_words l c.regs n).reverse =
      nested_frame l c.regs n error_code := by
    by_cases code : HasErrorCode n <;>
      simp [taken,kernel,code,stub_words,saved_regs,nested_frame,stacked_code,Regs.get]
  rw [words] at called
  exact called

/-! ### Leaving -/

theorem slot_add_4 (p : Word) (i : Nat) : slot p i+4#32 = slot p (i+1) := slot_add p i 1
theorem slot_add_8 (p : Word) (i : Nat) : slot p i+8#32 = slot p (i+2) := slot_add p i 2
theorem slot_add_12 (p : Word) (i : Nat) : slot p i+12#32 = slot p (i+3) := slot_add p i 3
theorem slot_add_16 (p : Word) (i : Nat) : slot p i+16#32 = slot p (i+4) := slot_add p i 4

namespace Entry

/-- Where the C function returns to. -/
def after (l : Linked) (e : Entry) : Word :=
  match e.kind with
  | .interrupt _ _ => l.interrupt_return
  | .syscall => l.syscall_return

/-- The code there. -/
def code_after (e : Entry) : List Instr :=
  match e.kind with
  | .interrupt _ _ => common_interrupt_return
  | .syscall => syscall_handler_return

/-- The registers of user mode again. -/
def restored (e : Entry) (r : Regs) : Regs :=
  { e.regs with eax := e.eax, ds := r.ds, es := r.es, fs := r.fs, gs := r.gs }

end Entry

/-- The way out restores the registers from the frame. -/
theorem frame_leaves (l : Linked) {c : Cpu} {p : Word} {e : Entry} (user : Ring3 e.regs.cs)
    (esp : c.regs.esp = slot p e.bottom) (stacked : Stacked c.mem p e.bottom (e.frame l p)) :
    leave l (e.after l) e.code_after c = some { c with regs := e.restored c.regs } := by
  cases kind : e.kind with
  | interrupt n error_code =>
    simp only [Entry.bottom,Entry.frame,Entry.saved,Entry.pushed,kind,List.cons_append,List.nil_append,Stacked,entry,Cpu.mem,
      Nat.reduceAdd] at esp stacked
    simp only [leave,Entry.after,Entry.code_after,kind,common_interrupt_return,execs,exec,List.foldl_cons,List.foldl_nil,
      Cpu.top,Cpu.mem,Cpu.iret,Cpu.setEsp,Regs.set,esp,slot_add_4,slot_add_8,slot_add_12,slot_add_16,Nat.reduceAdd,stacked,user,
      if_true,Entry.restored]
  | syscall =>
    simp only [Entry.bottom,Entry.frame,Entry.saved,Entry.pushed,kind,List.cons_append,List.nil_append,Stacked,entry,Cpu.mem,
      Nat.reduceAdd] at esp stacked
    simp only [leave,Entry.after,Entry.code_after,kind,syscall_handler_return,execs,exec,List.foldl_cons,List.foldl_nil,
      Cpu.top,Cpu.mem,Cpu.iret,Cpu.setEsp,Regs.set,esp,slot_add_4,slot_add_8,slot_add_12,slot_add_16,Nat.reduceAdd,stacked,user,
      if_true,Entry.restored]

/-- The registers after an interrupt of the kernel; the processor has not touched the
    segment registers. -/
def resumed (r now : Regs) : Regs := { r with ss := now.ss, ds := now.ds, es := now.es, fs := now.fs, gs := now.gs }

theorem nested_leaves (l : Linked) {c : Cpu} {p : Word} {j : Nat} {r : Regs} {n : Vector} {error_code : Word}
    (kernel : ¬ Ring3 r.cs) (esp : c.regs.esp = slot p j) (old : r.esp = slot p (j+13))
    (stacked : Stacked c.mem p j (nested_frame l r n error_code)) :
    leave l l.interrupt_return common_interrupt_return c = some { c with regs := resumed r c.regs } := by
  simp only [nested_frame,Stacked,entry,Cpu.mem,Nat.add_assoc,Nat.reduceAdd] at stacked
  simp only [leave,common_interrupt_return,execs,exec,List.foldl_cons,List.foldl_nil,Cpu.top,Cpu.mem,Cpu.iret,Cpu.setEsp,
    Regs.set,esp,slot_add_4,slot_add_8,slot_add_12,Nat.add_assoc,Nat.reduceAdd,stacked,kernel,if_true,if_false,resumed,old]

/-! ### Switching -/

/-- The words that `switch_context` saves, the last one pushed first. -/
def switch_frame (r : Regs) : List Word := [r.eflags,r.edi,r.esi,r.ebx,r.ebp]

theorem slot_add_24 (p : Word) (i : Nat) : slot p i+24#32 = slot p (i+6) := slot_add p i 6
theorem slot_add_28 (p : Word) (i : Nat) : slot p i+28#32 = slot p (i+7) := slot_add p i 7
theorem slot_add_32 (p : Word) (i : Nat) : slot p i+32#32 = slot p (i+8) := slot_add p i 8

theorem slotAt_esp_field (l : Linked) (i : Slot) : slotAt l (l.esp_field i) = some i := by
  have found : ((List.finRange MAX_PROCESSES).find? (fun j => l.esp_field j = l.esp_field i)).isSome :=
    List.find?_isSome.mpr ⟨i,List.mem_finRange i,by simp⟩
  obtain ⟨j,isFirst⟩ := Option.isSome_iff_exists.mp found
  have same : l.esp_field j = l.esp_field i := by simpa using List.find?_some isFirst
  rw [slotAt,isFirst,l.distinct same]

/-- `switch_context` saves the registers on the old stack and its pointer in the
    process table, and goes to the new directory and the new stack. -/
theorem switch_saves (l : Linked) {c : Cpu} {p : Word} (aligned : PageAligned p) {j : Nat} (fits : j+9 ≤ 1024)
    (esp : c.regs.esp = slot p (j+5)) {old : Slot} {return_address new_esp new_cr3 : Word}
    (arguments : Stacked c.mem p (j+5) [return_address,l.esp_field old,new_esp,new_cr3]) :
    ∃ m, execs l c switch_context_save =
        ⟨{ c.regs with eax := l.esp_field old, ecx := new_esp, edx := new_cr3, esp := new_esp },
          switch_context (c.kernel.setMem m) old (slot p j) new_cr3⟩ ∧
      Stacked m p j (switch_frame c.regs) ∧ ∀ a, Apart p j (j+5) a → m a = c.mem a := by
  obtain ⟨pointer,stacked,off⟩ := pushAll_slot (c := c) aligned
    [c.regs.ebp,c.regs.ebx,c.regs.esi,c.regs.edi,c.regs.eflags] (j := j) (by simp; omega) esp
  have kept : Stacked (c.pushAll [c.regs.ebp,c.regs.ebx,c.regs.esi,c.regs.edi,c.regs.eflags]).mem p (j+5)
      [return_address,l.esp_field old,new_esp,new_cr3] :=
    stacked_congr aligned (by simp; omega) (fun a page low _ => off a (fun _ => .inr low)) arguments
  refine ⟨_,?_,stacked,off⟩
  have split : execs l c switch_context_save =
      execs l (c.pushAll [c.regs.ebp,c.regs.ebx,c.regs.esi,c.regs.edi,c.regs.eflags])
        [.mov_load .eax 24#32,.mov_load .ecx 28#32,.mov_load .edx 32#32,.mov_store_esp .eax,.mov_cr3 .edx,.mov_esp .ecx] := by
    rw [show execs l c switch_context_save = execs l (c.pushAll []) switch_context_save from rfl]
    simp only [switch_context_save,execs,List.foldl_cons,List.foldl_nil,exec_push,exec_pushfd,List.nil_append,
      List.cons_append,Regs.get]
  rw [split]
  have kernel := pushAll_kernel (c := c) [c.regs.ebp,c.regs.ebx,c.regs.esi,c.regs.edi,c.regs.eflags]
  have others : (c.pushAll [c.regs.ebp,c.regs.ebx,c.regs.esi,c.regs.edi,c.regs.eflags]).regs =
      { c.regs with esp := slot p j } := by
    rw [← pointer]
    rfl
  generalize c.pushAll [c.regs.ebp,c.regs.ebx,c.regs.esi,c.regs.edi,c.regs.eflags] = d at kernel others kept
  simp only [Stacked,entry,Cpu.mem,Nat.add_assoc,Nat.reduceAdd] at kept
  simp only [execs,List.foldl_cons,List.foldl_nil,exec,Cpu.mem,others,Regs.set,Regs.get,slot_add_24,slot_add_28,slot_add_32,
    kept,Cpu.storeField,slotAt_esp_field,Cpu.setEsp,switch_context]
  rw [kernel]
  rfl

/-- On the new stack, the registers that were saved there are restored. -/
theorem switch_restores (l : Linked) {c : Cpu} {p : Word} {j : Nat} {r : Regs} {return_address : Word}
    (esp : c.regs.esp = slot p j) (stacked : Stacked c.mem p j (switch_frame r ++ [return_address])) :
    execs l c restore = { c with regs := { c.regs with
      eflags := r.eflags, edi := r.edi, esi := r.esi, ebx := r.ebx, ebp := r.ebp,
      eip := return_address, esp := slot p (j+6) } } := by
  simp only [switch_frame,List.cons_append,List.nil_append,Stacked,entry,Cpu.mem,Nat.add_assoc,Nat.reduceAdd] at stacked
  simp only [restore,execs,exec,List.foldl_cons,List.foldl_nil,Cpu.top,Cpu.mem,Regs.set,esp,slot_add_4,Nat.add_assoc,
    Nat.reduceAdd,stacked]

/-! ### New processes -/

/-- The first words of a new stack are a frame of `switch_context` that returns to the
    trampoline, the others what `iret` needs. -/
theorem initial_stack_frame (process_start_trampoline : Word) :
    (initial_stack process_start_trampoline).reverse =
      [0x0002#32,0#32,0#32,0#32,0#32] ++ [process_start_trampoline] ++
        [USER_CODE_VIRT,0x1B#32,0x0202#32,USER_STACK_TOP,0x23#32] := rfl

/-- The registers with which a new process enters user mode. -/
structure Starts (r : Regs) : Prop where
  eip : r.eip = 0#32
  cs : r.cs = 0x1B#32
  eflags : r.eflags = 0x202#32
  esp : r.esp = 0xC0000000#32
  ss : r.ss = 0x23#32

theorem trampoline_enters (l : Linked) {c : Cpu} {p : Word} (esp : c.regs.esp = slot p 1019)
    (stacked : Stacked c.mem p 1019 [USER_CODE_VIRT,0x1B#32,0x0202#32,USER_STACK_TOP,0x23#32]) :
    (execs l c process_start_trampoline_code).kernel = c.kernel ∧
      Starts (execs l c process_start_trampoline_code).regs := by
  simp only [Stacked,entry,Cpu.mem,Nat.reduceAdd] at stacked
  have user : Ring3 0x1B#32 := by decide
  simp only [process_start_trampoline_code,execs,exec,List.foldl_cons,List.foldl_nil,Cpu.top,Cpu.mem,Cpu.iret,Regs.setSeg,esp,
    slot_add_4,slot_add_8,slot_add_12,slot_add_16,Nat.reduceAdd,stacked,user,if_true]
  exact ⟨trivial,rfl,rfl,rfl,rfl,rfl⟩

/-- The bytes of the next three words to be pushed. -/
def ThreeWords (esp a : Word) : Prop := InWord (esp-4#32) a ∨ InWord (esp-4#32-4#32) a ∨ InWord (esp-4#32-4#32-4#32) a

theorem sub_four_aligned {a : Word} (aligned : a.toNat % 4 = 0) : (a-4#32).toNat % 4 = 0 := by
  rw [BitVec.toNat_sub]
  simp only [BitVec.toNat_ofNat]
  omega

theorem sub_four_ne (a : Word) : a-4#32 ≠ a := by
  intro same
  have values := congrArg BitVec.toNat same
  rw [BitVec.toNat_sub] at values
  simp only [BitVec.toNat_ofNat] at values
  omega

/-- `jump_to_process` goes to the directory and the stack it is given. -/
theorem jump_loads (l : Linked) {c : Cpu} (aligned : c.regs.esp.toNat % 4 = 0) (page_dir_phys saved_esp after : Word) :
    ∃ m, execs l (c.pushAll [page_dir_phys,saved_esp,after]) jump_to_process_load =
        ⟨{ c.regs with ecx := saved_esp, edx := page_dir_phys, esp := saved_esp },
          { c.kernel.setMem m with cr3 := page_dir_phys }⟩ ∧
      ∀ a, ¬ ThreeWords c.regs.esp a → m a = c.mem a := by
  generalize firstIs : c.regs.esp-4#32 = first
  generalize secondIs : first-4#32 = second
  generalize thirdIs : second-4#32 = third
  have alignedFirst : first.toNat % 4 = 0 := firstIs ▸ sub_four_aligned aligned
  have alignedSecond : second.toNat % 4 = 0 := secondIs ▸ sub_four_aligned alignedFirst
  have alignedThird : third.toNat % 4 = 0 := thirdIs ▸ sub_four_aligned alignedSecond
  have pushes : c.pushAll [page_dir_phys,saved_esp,after] = (c.setMem (write32 (write32 (write32 c.mem first page_dir_phys)
      second saved_esp) third after)).setEsp third := by
    rw [← thirdIs,← secondIs,← firstIs]
    rfl
  have backSecond : third+4#32 = second := by rw [← thirdIs,BitVec.sub_add_cancel]
  have backFirst : third+8#32 = first := by
    rw [show (8#32 : Word) = 4#32+4#32 by decide,← BitVec.add_assoc,backSecond,← secondIs,BitVec.sub_add_cancel]
  have apart : third ≠ second ∧ second ≠ first ∧ third ≠ first := by
    refine ⟨thirdIs ▸ sub_four_ne second,secondIs ▸ sub_four_ne first,?_⟩
    rw [← backFirst]
    intro same
    have values := congrArg BitVec.toNat same
    rw [BitVec.toNat_add] at values
    simp only [BitVec.toNat_ofNat] at values
    omega
  refine ⟨write32 (write32 (write32 c.mem first page_dir_phys) second saved_esp) third after,?_,?_⟩
  · rw [pushes]
    simp only [jump_to_process_load,execs,exec,List.foldl_cons,List.foldl_nil,Cpu.mem,Cpu.setMem,Cpu.setEsp,Kernel.setMem,
      Regs.set,Regs.get,backSecond,backFirst,read32_write32,read32_write32_ne alignedThird alignedSecond apart.1,
      read32_write32_ne alignedThird alignedFirst apart.2.2,read32_write32_ne alignedSecond alignedFirst apart.2.1]
  · intro a outside
    simp only [ThreeWords,firstIs,secondIs,thirdIs,not_or] at outside
    rw [write32_outside outside.2.2,write32_outside outside.2.1,write32_outside outside.1]

end SoKernel.StackFrames
