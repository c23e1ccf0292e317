import SoKernel.Cached
import SoKernel.Footprint

/-!
The translations that the processor keeps. It may fetch any translation through the
loaded directory ahead of time and keep it until CR3 is loaded again; nothing else that
the kernel does makes it forget one, since the kernel never executes `invlpg`. It is
right not to: the directory that is loaded, and its tables, stay as they are.
-/
namespace SoKernel.Tlb
open SoKernel.Words SoKernel.Pages SoKernel.Pfa SoKernel.Paging SoKernel.Fs SoKernel.Process SoKernel.StackReach SoKernel.Kmain
  SoKernel.Processor SoKernel.KernelThreads SoKernel.KernelStacks SoKernel.ContextSwitch SoKernel.Cached SoKernel.Footprint
set_option linter.unusedSimpArgs false

/-- What the processor finds for an address when it walks the loaded directory. -/
def walk (s : State) (virt : Word) : Option Translation := translate s.cpu.mem s.cpu.kernel.cr3 virt

/-- Another directory is loaded. -/
def Reloads (s s' : State) : Prop := s'.cpu.kernel.cr3 ≠ s.cpu.kernel.cr3

/-- A step in which programs fit and pointers lead to memory of the caller. -/
def Moves (b : Setup) (p : Program) (s s' : State) : Prop :=
  ∃ event, Admits b p s event ∧ KernelThreads.Step p s event s'

/-- The machine with its translation lookaside buffer. -/
abbrev TlbRun (b : Setup) (p : Program) : State × Cache Word Translation → State × Cache Word Translation → Prop :=
  Cached.Run (Moves b p) walk Reloads

theorem moves_inv {b : Setup} {start : Frames} (bootUsed : is_used start (pageOf b.page_directory) = true) {p : Program}
    (data : p.data = KernelData b start) {s s' : State} (inv : Inv p.linked b start s) (moves : Moves b p s s') :
    Inv p.linked b start s' := by
  obtain ⟨event,admits,step⟩ := moves
  exact (step_inv bootUsed data inv admits step).1

/-- As long as the same directory is loaded, it translates in the same way. -/
theorem moves_walk {b : Setup} {start : Frames} (bootUsed : is_used start (pageOf b.page_directory) = true) {p : Program}
    (data : p.data = KernelData b start) {s s' : State} (inv : Inv p.linked b start s) (moves : Moves b p s s')
    (stays : ¬ Reloads s s') : walk s' = walk s := by
  obtain ⟨event,admits,step⟩ := moves
  have within : ∀ f, p.data f → KernelData b start f := fun f own => data ▸ own
  have effect := step_effect bootUsed within inv admits step
  obtain ⟨book,kept⟩ := inv.kept
  have loaded : s'.cpu.kernel.cr3 = s.cpu.kernel.cr3 := not_not.mp stays
  funext virt
  rw [walk,walk,loaded]
  exact effect_walk within kept bootUsed effect virt

/-- In every run from boot in which programs fit and pointers lead to memory of the caller,
    whatever translations the processor has kept and given up: every address is translated
    as by a walk of the loaded directory in memory. -/
theorem tlb_transparent {b : Setup} {fuel : Nat} {k : Kernel} {fs : FsInstance} (boot : kmain fuel b = some (k,fs))
    {l : Linked} {r : Regs} (cs : r.cs = KERNEL_CODE_SEGMENT) {line : Keyboard.Line} {fb : Console.Fb} {s : State}
    {tlb : Cache Word Translation}
    (run : TlbRun b ⟨l,fs,KernelData b k.phys.frames⟩ (Transparency.booted k r line fb,empty) (s,tlb)) :
    ∀ virt, lookup tlb (walk s) virt = translate s.cpu.mem s.cpu.kernel.cr3 virt := by
  have bootUsed := kmain_image boot bootDir_shares
  have keeps : ∀ s s', Inv l b k.phys.frames s → Moves b ⟨l,fs,KernelData b k.phys.frames⟩ s s' →
      Inv l b k.phys.frames s' := fun s s' inv moves => moves_inv bootUsed rfl inv moves
  have stable : ∀ s s', Inv l b k.phys.frames s → Moves b ⟨l,fs,KernelData b k.phys.frames⟩ s s' →
      ¬ Reloads s s' → walk s' = walk s := fun s s' inv moves stays => moves_walk bootUsed rfl inv moves stays
  obtain ⟨_,coherent⟩ := run_coherent keeps stable (Transparency.booted_inv boot cs) run
  intro virt
  rw [lookup_coherent coherent]
  rfl

/-- Every run of the machine is one of the machine with a buffer. -/
theorem run_tlb {b : Setup} {p : Program} {s s' : State} {events : List Event}
    (run : KernelThreads.Run p (Admits b p) s events s') : TlbRun b p (s,empty) (s',empty) := by
  induction run with
  | refl => exact .refl
  | step _ admits step ih => exact ih.tail (.flush _ _ _ ⟨_,admits,step⟩)

/-- `hello` runs on the small PC, all translations have been fetched, and the timer
    interrupts it. -/
theorem tlb_transparent_pc : ∃ (frames : Frames) (s s' : State) (tlb : Cache Word Translation),
    kmain 3 pcSetup = some (pcKernel frames,pcFs) ∧ s.mode = .user ∧ s'.mode = .kernel ∧ tlb = walk s ∧
    ∀ virt, lookup tlb (walk s') virt = translate s'.cpu.mem s'.cpu.kernel.cr3 virt := by
  obtain ⟨frames,events,s,i,boot,run,user,running,_⟩ := Transparency.hello_launched
  have inv := (Transparency.run_inv boot rfl run).1
  obtain ⟨_,_,ring3,aligned,esp0⟩ := user_stack inv user running.current
  have called := StackFrames.interrupt_enters Transparency.pcLinked aligned ring3 esp0 32 0#32
  have enters := KernelThreads.Step.interrupt (p := Transparency.pcProgram frames) s i 32 0#32 user running.current
  have filled : TlbRun pcSetup (Transparency.pcProgram frames) (Transparency.pcBooted frames,empty) (s,walk s) :=
    (run_tlb run).tail (.fill _ _ (fun _ => true))
  refine ⟨frames,s,_,_,boot,user,rfl,rfl,
    tlb_transparent boot rfl (filled.tail (.keep s _ _ ⟨_,by exact trivial,enters⟩ (not_not.mpr ?_)))⟩
  change (arrive Transparency.pcLinked s.cpu 32 0#32).kernel.cr3 = s.cpu.kernel.cr3
  rw [called.kernel]
  rfl

end SoKernel.Tlb
