import SoKernel.Pic
import SoKernel.Footprint

/-!
The machine with its interrupt controllers. Devices ask for interrupts at any time. The
processor takes what the controllers give when it runs user code, sleeps in a system
call or runs `kmain`, and `interrupt_handler` acknowledges it before it calls `schedule`.
So nothing stays in service when a process is switched to, and no request is held back.
-/
namespace SoKernel.Interrupts
open SoKernel.Words SoKernel.Pages SoKernel.Pfa SoKernel.Stack SoKernel.Fs SoKernel.Process SoKernel.StackReach SoKernel.Kmain
  SoKernel.Processor SoKernel.StackFrames SoKernel.KernelThreads SoKernel.KernelStacks SoKernel.ContextSwitch SoKernel.Chips
  SoKernel.Pic
set_option linter.unusedSimpArgs false

/-! ### Handlers -/

/-- `interrupt_handler` has been called in the process, and has not acknowledged the
    interrupt yet. -/
def Handling (s : KernelThreads.State) (i : Slot) (n : Vector) : Prop :=
  ∃ e error_code, s.thread i = .inside e .called ∧ e.kind = .interrupt n error_code

/-- The thread is not at the start of a C function. -/
def Past : Thread → Prop
  | .inside _ .called => False
  | .suspended _ .called _ => False
  | _ => True

/-- No process has called `schedule` from the start of a C function. -/
def Resumable (s : KernelThreads.State) : Prop :=
  ∀ i e point call, s.thread i = .suspended e point call → Past (s.thread i)

/-- Handlers run in the current process, one at a time. -/
structure Orderly (s : KernelThreads.State) : Prop where
  current : ∀ i n, Handling s i n → s.mode = .kernel ∧ s.cpu.kernel.current = some i
  resumable : Resumable s

section
variable {p : Program} {l : Linked} {s s' : KernelThreads.State} {event : Event} {i j : Slot} {e e' : Entry} {point : Point}

theorem setThread_past {t : Thread} (past : Past t) :
    (s.setThread j t).thread i = s.thread i ∨ Past ((s.setThread j t).thread i) := by
  by_cases same : i = j
  · subst same
    rw [show (s.setThread i t).thread i = t from Function.update_self ..]
    exact .inr past
  · exact .inl (Function.update_of_ne same ..)

theorem suspended_past {call : Cpu} (past : Past (.suspended e point call)) : Past (.inside e point) := by
  cases point with
  | called => exact past
  | _ => trivial

theorem lands_threads (resumable : Resumable s) {c : Cpu} (lands : Lands l s j c event s') :
    s'.thread i = s.thread i ∨ Past (s'.thread i) := by
  cases lands with
  | starts fresh here => exact setThread_past (s := s) (by exact trivial)
  | continues e point call suspended here goesOn =>
    have past := resumable j e point call suspended
    rw [suspended] at past
    exact setThread_past (s := s) (suspended_past past)
  | lost notNew notOld => exact .inl rfl

theorem parked_past (past : Past (.inside e point)) {call : Cpu} : Past (.suspended e point call) := by
  cases point with
  | called => exact past
  | _ => trivial

theorem parked_resumable (resumable : Resumable s) {call : Cpu} (past : Past (.suspended e point call)) :
    Resumable (s.setThread j (.suspended e point call)) := by
  intro i' e' point' call' suspended
  rcases setThread_past (s := s) (i := i') (j := j) past with same | past
  · rw [same] at suspended ⊢
    exact resumable i' e' point' call' suspended
  · exact past

theorem switches_threads (resumable : Resumable s) (past : Past (.inside e point))
    (switched : Switches l s j e point event s') :
    s'.thread i = s.thread i ∨ Past (s'.thread i) := by
  obtain ⟨next,found,n,room,esp,event,s',lands⟩ := switched
  have parking : Past (.suspended e point (switching l s.cpu j next)) := parked_past past
  rcases lands_threads (i := i) (parked_resumable resumable parking) lands with same | past
  · rw [same]
    exact setThread_past (s := s) parking
  · exact .inr past

theorem schedules_threads (resumable : Resumable s) (past : Past (.inside e point))
    (schedules : Schedules l s j e point event s') :
    s'.thread i = s.thread i ∨ Past (s'.thread i) := by
  cases schedules with
  | stays alone => exact setThread_past (s := s) past
  | switches _ _ switched => exact switches_threads resumable past switched

theorem created_threads {slot : Option Slot} : withNew s.thread slot i = s.thread i ∨ Past (withNew s.thread slot i) := by
  cases slot with
  | none => exact .inl rfl
  | some new => exact setThread_past (s := s) (t := .fresh) trivial

/-- A thread comes to the start of a C function only by an entry. -/
theorem step_threads (resumable : Resumable s) (step : KernelThreads.Step p s event s') :
    s'.thread i = s.thread i ∨ Past (s'.thread i) ∨ ∃ e, event = .entered i e ∧ s'.thread i = .inside e .called := by
  cases step with
  | bootWork c boot boots => exact .inl rfl
  | bootKey scan_code boot => exact .inl (by rw [device_thread])
  | bootCreate name boot => exact created_threads.imp_right .inl
  | nothingToRun boot none => exact .inl rfl
  | start k i after boot started first aligned stack => exact .inl rfl
  | launch i _ _ launching current lands => exact (lands_threads resumable lands).imp_right .inl
  | nested j n error_code scan_code k w c interruptible room esp works returns left goesOn =>
    exact .inl (by rw [device_thread])
  | nestedLost j n error_code k w interruptible room esp works returns lost => exact .inl rfl
  | userCode r m user ring3 mem => exact .inl rfl
  | interrupt j n error_code user current =>
    by_cases same : i = j
    · subst same
      exact .inr (.inr ⟨_,rfl,Function.update_self ..⟩)
    · exact .inl (Function.update_of_ne same ..)
  | syscall j user current =>
    by_cases same : i = j
    · subst same
      exact .inr (.inr ⟨_,rfl,Function.update_self ..⟩)
    · exact .inl (Function.update_of_ne same ..)
  | work j e' point c inside works => exact .inl rfl
  | handled j e' n error_code scan_code inside kind noTick =>
    rw [device_thread]
    exact (setThread_past (by exact trivial)).imp_right .inl
  | tick j e' n error_code inside kind timer _ _ schedules =>
    exact (schedules_threads resumable (by exact trivial) schedules).imp_right .inl
  | sysExit j e' inside kind call _ _ switched =>
    exact (switches_threads (s := s.exit j) resumable (by exact trivial) switched).imp_right .inl
  | sysExitLast j e' inside kind call alone => exact .inl rfl
  | sysYield j e' inside kind call _ _ schedules => exact (schedules_threads resumable (by exact trivial) schedules).imp_right .inl
  | sysSpawn j e' name inside kind call named =>
    rcases setThread_past (s := s.afterCreate (s.create p name)) (i := i) (j := j)
      (t := .inside { e' with eax := BitVec.ofInt 32 (s.create p name).result } .done) trivial with same | past
    · exact ((created_threads (s := s)).imp same.trans (fun past => .inl (by rw [State.result]; exact same ▸ past)))
    · exact .inr (.inl past)
  | sysRead j e' inside kind call => exact (setThread_past (by exact trivial)).imp_right .inl
  | sysWait j e' inside kind call => exact (setThread_past (by exact trivial)).imp_right .inl
  | sysAtOnce j e' inside kind call => exact (setThread_past (s := s) (by exact trivial)).imp_right .inl
  | testReady j e' call inside kind isReady o outcome => exact (setThread_past (s := s) (by exact trivial)).imp_right .inl
  | testNotReady j e' call inside notReady _ _ schedules =>
    exact (schedules_threads resumable (by exact trivial) schedules).imp_right .inl
  | scheduledReady j e' call inside isReady => exact (setThread_past (by exact trivial)).imp_right .inl
  | scheduledNotReady j e' call inside notReady => exact (setThread_past (by exact trivial)).imp_right .inl
  | wake j e' call inside => exact (setThread_past (by exact trivial)).imp_right .inl
  | returns j e' c inside esp left => exact (setThread_past (s := s) (by exact trivial)).imp_right .inl
  | returnLost j e' inside esp lost => exact .inl rfl

theorem past_notHandling (past : Past (s.thread i)) (n : Vector) : ¬ Handling s i n := by
  rintro ⟨e,error_code,thread,_⟩
  rw [thread] at past
  exact past

theorem handling_congr (same : s'.thread i = s.thread i) {n : Vector} (handling : Handling s' i n) : Handling s i n := by
  obtain ⟨e,error_code,thread,kind⟩ := handling
  exact ⟨e,error_code,same ▸ thread,kind⟩

/-- A handler that runs after a step ran before it, or has just been entered. -/
theorem step_handling (resumable : Resumable s) (step : KernelThreads.Step p s event s') {n : Vector}
    (handling : Handling s' i n) : Handling s i n ∨ ∃ e error_code, event = .entered i e ∧ e.kind = .interrupt n error_code := by
  rcases step_threads (i := i) resumable step with same | past | ⟨e,entered,thread⟩
  · exact .inl (handling_congr same handling)
  · exact absurd handling (past_notHandling past n)
  · obtain ⟨e',error_code,thread',kind⟩ := handling
    rw [thread] at thread'
    cases thread'
    exact .inr ⟨e,error_code,entered,kind⟩

theorem step_resumable (resumable : Resumable s) (step : KernelThreads.Step p s event s') : Resumable s' := by
  intro i e point call suspended
  rcases step_threads (i := i) resumable step with same | past | ⟨e',_,thread⟩
  · rw [same] at suspended ⊢
    exact resumable i e point call suspended
  · exact past
  · rw [thread] at suspended
    cases suspended

theorem in_unique (inside : s.In i e point) {point' : Point} (other : s.In j e' point') :
    j = i ∧ e' = e ∧ point' = point := by
  obtain ⟨_,current,thread⟩ := inside
  obtain ⟨_,current',thread'⟩ := other
  rw [current] at current'
  cases current'
  rw [thread] at thread'
  cases thread'
  exact ⟨rfl,rfl,rfl⟩

theorem interruptible_notHandling (interruptible : s.Interruptible j) (inside : s.In i e .called) : False := by
  rcases interruptible with ⟨launching,_⟩ | ⟨e',call,asleep⟩
  · rw [inside.1] at launching
    cases launching
  · cases (in_unique inside asleep).2.2

theorem lands_past (resumable : Resumable s) {c : Cpu} (past : Past (s.thread i)) (lands : Lands l s j c event s') :
    Past (s'.thread i) := by
  rcases lands_threads (i := i) resumable lands with same | past
  · rw [same]
    exact past
  · exact past

theorem switches_past (resumable : Resumable s) (past : Past (.inside e point))
    (switched : Switches l s i e point event s') : Past (s'.thread i) := by
  obtain ⟨next,found,n,room,esp,event,s',lands⟩ := switched
  have parking : Past (.suspended e point (switching l s.cpu i next)) := parked_past past
  refine lands_past (parked_resumable resumable parking) ?_ lands
  rw [show (s.setThread i (.suspended e point (switching l s.cpu i next))).thread i = _ from Function.update_self ..]
  exact parking

theorem schedules_past (resumable : Resumable s) (past : Past (.inside e point))
    (schedules : Schedules l s i e point event s') : Past (s'.thread i) := by
  cases schedules with
  | stays alone =>
    rw [show (s.setThread i (.inside e point)).thread i = _ from Function.update_self ..]
    exact past
  | switches _ _ switched => exact switches_past resumable past switched

/-- What a handler does: it goes on, or it is past its acknowledgment. -/
theorem handler_step (resumable : Resumable s) (inside : s.In i e .called) {n : Vector} {error_code : Word}
    (kind : e.kind = .interrupt n error_code) (step : KernelThreads.Step p s event s') :
    (s'.thread = s.thread ∧ s'.mode = .kernel ∧ s'.cpu.kernel.current = some i) ∨ Past (s'.thread i) := by
  have elsewhere : ∀ mode, s.mode = mode → mode = .kernel := fun mode is => is.symm.trans inside.1
  have noCall : ∀ {j e'}, s.In j e' .called → e'.kind ≠ .syscall := by
    intro j e' inside' isCall
    obtain ⟨_,rfl,_⟩ := in_unique inside inside'
    rw [kind] at isCall
    cases isCall
  have notLater : ∀ {j e' point}, s.In j e' point → point = .called := fun inside' => (in_unique inside inside').2.2
  cases step with
  | bootWork c boot boots => cases elsewhere _ boot
  | bootKey scan_code boot => cases elsewhere _ boot
  | bootCreate name boot => cases elsewhere _ boot
  | nothingToRun boot none => cases elsewhere _ boot
  | start k i after boot started first aligned stack => cases elsewhere _ boot
  | launch i _ _ launching current lands => cases elsewhere _ launching
  | nested j n error_code scan_code k w c interruptible room esp works returns left goesOn =>
    exact (interruptible_notHandling interruptible inside).elim
  | nestedLost j n error_code k w interruptible room esp works returns lost =>
    exact (interruptible_notHandling interruptible inside).elim
  | userCode r m user ring3 mem => cases elsewhere _ user
  | interrupt j n error_code user current => cases elsewhere _ user
  | syscall j user current => cases elsewhere _ user
  | work j e' point c inside' works =>
    refine .inl ⟨rfl,inside.1,?_⟩
    change c.kernel.current = some i
    rw [works.kernel]
    exact inside.2.1
  | handled j e' n error_code scan_code inside' kind noTick =>
    obtain ⟨rfl,_,_⟩ := in_unique inside inside'
    refine .inr ?_
    rw [device_thread,show (s.setThread j (.inside e' .done)).thread j = _ from Function.update_self ..]
    trivial
  | tick j e' n error_code inside' kind timer _ _ schedules =>
    obtain ⟨rfl,_,_⟩ := in_unique inside inside'
    exact .inr (schedules_past resumable (by exact trivial) schedules)
  | sysExit j e' inside' kind call _ _ switched => exact absurd kind (noCall inside')
  | sysExitLast j e' inside' kind call alone => exact absurd kind (noCall inside')
  | sysYield j e' inside' kind call _ _ schedules => exact absurd kind (noCall inside')
  | sysSpawn j e' name inside' kind call named => exact absurd kind (noCall inside')
  | sysRead j e' inside' kind call => exact absurd kind (noCall inside')
  | sysWait j e' inside' kind call => exact absurd kind (noCall inside')
  | sysAtOnce j e' inside' kind call => exact absurd kind (noCall inside')
  | testReady j e' call inside' kind isReady o outcome => cases notLater inside'
  | testNotReady j e' call inside' notReady _ _ schedules => cases notLater inside'
  | scheduledReady j e' call inside' isReady => cases notLater inside'
  | scheduledNotReady j e' call inside' notReady => cases notLater inside'
  | wake j e' call inside' => cases notLater inside'
  | returns j e' c inside' esp left => cases notLater inside'
  | returnLost j e' inside' esp lost => cases notLater inside'

/-- Interrupts are entered from user code, by the current process. -/
theorem entered_current {b : Setup} {start : Frames} (inv : Inv p.linked b start s) {n : Vector} {error_code : Word}
    (kind : e.kind = .interrupt n error_code) (step : KernelThreads.Step p s (.entered i e) s') :
    s.mode = .user ∧ s'.mode = .kernel ∧ s'.cpu.kernel.current = some i ∧ s'.thread i = .inside e .called := by
  have shows : ¬ (Event.entered i e = .silent ∨ ∃ j r, Event.entered i e = .started j r) := by simp
  cases step with
  | launch i _ _ launching current lands => exact absurd (lands_event lands) shows
  | interrupt i n error_code user current =>
    obtain ⟨_,_,ring3,aligned,esp0⟩ := user_stack inv user current
    obtain ⟨⟨mode,current,thread⟩,_,_⟩ := Transparency.called_arrived current
      (interrupt_enters p.linked aligned ring3 esp0 n error_code)
    exact ⟨user,mode,current,thread⟩
  | syscall i user current => cases kind
  | tick j e' n error_code inside kind timer _ _ schedules => exact absurd (schedules_event schedules) shows
  | sysExit j e' inside kind call _ _ switched => exact absurd (switches_event switched) shows
  | sysYield j e' inside kind call _ _ schedules => exact absurd (schedules_event schedules) shows
  | testNotReady j e' call inside notReady _ _ schedules => exact absurd (schedules_event schedules) shows

theorem handling_in (orderly : Orderly s) {n : Vector} (handling : Handling s i n) :
    ∃ e error_code, s.In i e .called ∧ e.kind = .interrupt n error_code := by
  obtain ⟨mode,current⟩ := orderly.current i n handling
  obtain ⟨e,error_code,thread,kind⟩ := handling
  exact ⟨e,error_code,⟨mode,current,thread⟩,kind⟩

theorem handling_unique (orderly : Orderly s) {m n : Vector} (handling : Handling s i m) (other : Handling s j n) :
    j = i ∧ n = m := by
  obtain ⟨e,_,inside,kind⟩ := handling_in orderly handling
  obtain ⟨e',_,inside',kind'⟩ := handling_in orderly other
  obtain ⟨same,rfl,_⟩ := in_unique inside inside'
  rw [kind] at kind'
  cases kind'
  exact ⟨same,rfl⟩

theorem step_orderly {b : Setup} {start : Frames} (inv : Inv p.linked b start s) (orderly : Orderly s)
    (step : KernelThreads.Step p s event s') : Orderly s' := by
  refine ⟨fun i n handling => ?_,step_resumable orderly.resumable step⟩
  rcases step_handling orderly.resumable step handling with before | ⟨e,error_code,rfl,kind⟩
  · obtain ⟨e,_,inside,kind⟩ := handling_in orderly before
    rcases handler_step orderly.resumable inside kind step with ⟨_,mode,current⟩ | past
    · exact ⟨mode,current⟩
    · exact absurd handling (past_notHandling past n)
  · obtain ⟨_,mode,current,_⟩ := entered_current inv kind step
    exact ⟨mode,current⟩

/-- The number of the interrupt is on the stack of its handler. -/
theorem handling_word {b : Setup} {start : Frames} (inv : Inv l b start s) (inside : s.In i e .called) {n : Vector}
    {error_code : Word} (kind : e.kind = .interrupt n error_code) : s.word i 1017 = BitVec.ofNat 32 n := by
  obtain ⟨_,inside⟩ := inside_of inv inside
  have stacked := (inside_framed inside).stacked
  simp only [Entry.bottom,Entry.frame,kind,Entry.saved,Entry.pushed,List.cons_append,List.nil_append,Stacked,
    Nat.reduceAdd] at stacked
  exact stacked.2.2.2.2.2.2.2.2.1

end

/-! ### The machine and its controllers -/

structure State where
  machine : KernelThreads.State
  ports : Ports
  /-- `kmain` has called `pit_init`. -/
  timed : Bool

/-- What a step shows of the interrupts. -/
inductive Signal
  | silent
  | asked (input : Input)
  | withdrawn (input : Input)
  /-- The processor has taken the interrupt. -/
  | taken (n : Vector)

def State.setPics (s : State) (pics : Pair) : State := { s with ports := { s.ports with pics := pics } }

/-- What `interrupt_handler` does to the controllers. -/
def acknowledged (int_no : Word) (d : Ports) : Ports :=
  if 32#32 ≤ int_no ∧ int_no ≤ 47#32 then pic_acknowledge int_no d else d

/-- The controllers give the vector. -/
def Gives (s : State) (n : Vector) (pics : Pair) : Prop := s.ports.pics.acknowledge = some (BitVec.ofNat 8 n,pics)

/-- The kernel is interrupted, and the handler runs and returns. -/
inductive Serves (p : Program) (s : KernelThreads.State) (n : Vector) : KernelThreads.State → Prop
  | intro (i : Slot) (error_code : Word) (scan_code : Byte) (j : Nat) (w c : Cpu) (interruptible : s.Interruptible i)
      (room : j+13 < 1024) (esp : s.cpu.regs.esp = slot (s.stack i) (j+13))
      (works : Works p.data (s.stack i) j (arrive p.linked s.cpu n error_code) w)
      (returns : w.regs.esp = slot (s.stack i) j)
      (left : leave p.linked p.linked.interrupt_return common_interrupt_return w = some c)
      (goesOn : Undisturbed (s.stack i) s.cpu c) :
      Serves p s n (({ s with cpu := c }).device (BitVec.ofNat 32 n) scan_code)

/-- The steps of the machine with its controllers. User code cannot enter the kernel by
    the vector of a device, since those gates are for the kernel only. -/
inductive Step (b : Setup) (p : Program) : State → Signal → State → Prop
  | ask (s : State) (input : Input) : Step b p s (.asked input) (s.setPics (s.ports.pics.ask input))
  | withdraw (s : State) (input : Input) : Step b p s (.withdrawn input) (s.setPics (s.ports.pics.withdraw input))
  | pit (s : State) (boot : s.machine.mode = .boot) :
      Step b p s .silent { s with ports := pit_init 50#32 s.ports, timed := true }
  /-- In `kmain`. The handler runs and returns. -/
  | boot (s : State) (n : Vector) (scan_code : Byte) (pics : Pair) (boot : s.machine.mode = .boot) (gives : Gives s n pics) :
      Step b p s (.taken n)
        { s with
          machine := s.machine.device (BitVec.ofNat 32 n) scan_code
          ports := acknowledged (BitVec.ofNat 32 n) (s.setPics pics).ports }
  | nested (s : State) (n : Vector) (pics : Pair) (m : KernelThreads.State) (gives : Gives s n pics)
      (serves : Serves p s.machine n m) :
      Step b p s (.taken n) { s with machine := m, ports := acknowledged (BitVec.ofNat 32 n) (s.setPics pics).ports }
  | arrives (s : State) (i : Slot) (e : Entry) (n : Vector) (error_code : Word) (pics : Pair) (m : KernelThreads.State)
      (gives : Gives s n pics) (kind : e.kind = .interrupt n error_code)
      (step : KernelThreads.Step p s.machine (.entered i e) m) :
      Step b p s (.taken n) { s.setPics pics with machine := m }
  /-- The rest of `interrupt_handler`, whose argument `int_no` is word 1017. -/
  | handles (s : State) (i : Slot) (n : Vector) (event : Event) (m : KernelThreads.State) (handling : Handling s.machine i n)
      (admits : Admits b p s.machine event) (step : KernelThreads.Step p s.machine event m)
      (handled : m.thread ≠ s.machine.thread) :
      Step b p s .silent { s with machine := m, ports := acknowledged (s.machine.word i 1017) s.ports }
  /-- Any other step. `kmain` calls `pit_init` before `scheduler_start`. -/
  | other (s : State) (event : Event) (m : KernelThreads.State) (admits : Admits b p s.machine event)
      (step : KernelThreads.Step p s.machine event m)
      (exception : ∀ i e n error_code, event = .entered i e → e.kind = .interrupt n error_code → n.val < 32)
      (notHandled : ∀ i n, Handling s.machine i n → m.thread = s.machine.thread)
      (timed : s.machine.mode = .boot → m.mode ≠ .boot → s.timed = true) :
      Step b p s .silent { s with machine := m }

inductive Run (b : Setup) (p : Program) (s : State) : List Signal → State → Prop
  | refl : Run b p s [] s
  | step {signals : List Signal} {t u : State} {signal : Signal} :
      Run b p s signals t → Step b p t signal u → Run b p s (signals ++ [signal]) u

/-- The processor takes interrupts. -/
def Listens (s : KernelThreads.State) : Prop := s.mode = .boot ∨ s.mode = .user ∨ ∃ i, s.Interruptible i

/-! ### What is in service -/

/-- The inputs of the first controller that are in service during a handler. -/
def inputs (n : Vector) : Finset (Fin 8) := if n.val = 32 then {0} else if n.val = 33 then {1} else ∅

def mask (timed : Bool) : Byte := if timed then 0xFC#8 else 0xFD#8

/-- What every step keeps. -/
structure Settled (s : State) : Prop where
  orderly : Orderly s.machine
  programmed : Programmed s.ports.pics (mask s.timed)
  timed : s.machine.mode ≠ .boot → s.timed = true
  slave : s.ports.pics.slave.isr = ∅
  handling : ∀ i n, Handling s.machine i n → s.ports.pics.master.isr = inputs n
  idle : (∀ i n, ¬ Handling s.machine i n) → s.ports.pics.master.isr = ∅

section
variable {b : Setup} {start : Frames} {p : Program} {s s' : State} {signal : Signal}

theorem mask_cascade (timed : Bool) : (mask timed).getLsbD cascade = true := by
  cases timed <;> decide

theorem settled_alone (settled : Settled s) : Alone s.ports.pics :=
  programmed_alone settled.programmed (mask_cascade s.timed)

/-- Only the timer and the keyboard are not masked. -/
theorem mask_open {timed : Bool} {i : Fin 8} (opened : (mask timed).getLsbD i = false) : i = 0 ∨ i = 1 := by
  revert i timed
  decide

theorem listens_notHandling (orderly : Orderly s.machine) (listens : Listens s.machine) (i : Slot) (n : Vector) :
    ¬ Handling s.machine i n := by
  intro handling
  obtain ⟨e,_,inside,_⟩ := handling_in orderly handling
  rcases listens with boot | user | ⟨j,interruptible⟩
  · rw [inside.1] at boot
    cases boot
  · rw [inside.1] at user
    cases user
  · exact interruptible_notHandling interruptible inside

/-- When the processor takes interrupts, nothing is in service. -/
theorem settled_idle (settled : Settled s) (listens : Listens s.machine) : s.ports.pics.master.isr = ∅ :=
  settled.idle (listens_notHandling settled.orderly listens)

/-- What the controllers give is what they ask for. -/
theorem gives_request (settled : Settled s) (listens : Listens s.machine) {n : Vector} {pics : Pair}
    (gives : Gives s n pics) :
    pics = s.ports.pics.taken s.ports.pics.request ∧ n.val = 32+(s.ports.pics.request.getD 7).val := by
  have alone := settled_alone settled
  rw [Gives,acknowledge_idle alone (settled_idle settled listens),programmed_gives settled.programmed,Option.some_inj,
    Prod.mk.injEq] at gives
  refine ⟨gives.2.symm,?_⟩
  have same := congrArg BitVec.toNat gives.1
  simp only [BitVec.toNat_ofNat] at same
  omega

/-- An interrupt that has been taken is in service alone, unless it was gone. -/
theorem taken_service (settled : Settled s) (listens : Listens s.machine) {n : Vector} {pics : Pair}
    (gives : Gives s n pics) :
    Programmed pics (mask s.timed) ∧ pics.slave.isr = ∅ ∧ pics.master.isr = inputs n := by
  obtain ⟨rfl,vector⟩ := gives_request settled listens gives
  have idle := settled_idle settled listens
  have programmed := settled.programmed
  cases asks : s.ports.pics.request with
  | none =>
    rw [asks] at vector
    have spurious : n = 39 := Fin.ext vector
    subst spurious
    exact ⟨programmed,settled.slave,idle⟩
  | some i =>
    rw [asks] at vector
    obtain ⟨_,opened,_⟩ := request_alone (settled_alone settled) asks
    have number : n.val = 32+i.val := vector
    refine ⟨⟨configured_registers programmed.master _ _,programmed.slave⟩,settled.slave,?_⟩
    rcases mask_open ((open_iff programmed.master i).mp opened) with rfl | rfl
    · have timer : n = 32 := Fin.ext number
      subst timer
      rfl
    · have keyboard : n = 33 := Fin.ext number
      subst keyboard
      rfl

/-- `interrupt_handler` ends its own interrupt, and no other. -/
theorem acknowledged_ends {d : Ports} {n : Vector} (slave : d.pics.slave.isr = ∅) (master : d.pics.master.isr = inputs n) :
    acknowledged (BitVec.ofNat 32 n) d = { d with pics := { d.pics with master := { d.pics.master with isr := ∅ } } } := by
  have ends : d.pics.master.endOfInterrupt = { d.pics.master with isr := ∅ } := by
    rw [inputs] at master
    split at master
    · exact endOfInterrupt_only master
    · split at master
      · exact endOfInterrupt_only master
      · rw [endOfInterrupt_idle master,← master]
  have exceptions : ∀ n : Vector, ¬ (32#32 ≤ BitVec.ofNat 32 n.val ∧ BitVec.ofNat 32 n.val ≤ 47#32) → inputs n = ∅ := by
    decide
  rw [acknowledged]
  by_cases device : 32#32 ≤ BitVec.ofNat 32 n.val ∧ BitVec.ofNat 32 n.val ≤ 47#32
  · rw [if_pos device,pic_acknowledge_ends,if_pos device,endOfInterrupt_idle slave,ends,ite_self]
  · rw [if_neg device]
    rw [exceptions n device] at master
    rw [← master]

theorem device_handling {m : KernelThreads.State} {i : Slot} {n : Vector} {int_no : Word} {scan_code : Byte}
    (handling : Handling (m.device int_no scan_code) i n) : Handling m i n :=
  handling_congr (by rw [device_thread]) handling

theorem device_orderly {m : KernelThreads.State} (orderly : Orderly m) (int_no : Word) (scan_code : Byte) :
    Orderly (m.device int_no scan_code) := by
  rw [State.device]
  split
  · exact ⟨orderly.current,orderly.resumable⟩
  · exact orderly

theorem serves_step {m m' : KernelThreads.State} {n : Vector} (serves : Serves p m n m') :
    KernelThreads.Step p m .silent m' ∧ m'.thread = m.thread ∧ m'.mode = m.mode ∧ Listens m := by
  obtain ⟨i,error_code,scan_code,j,w,c,interruptible,room,esp,works,returns,left,goesOn⟩ := serves
  refine ⟨.nested m i n error_code scan_code j w c interruptible room esp works returns left goesOn,?_,?_,
    .inr (.inr ⟨i,interruptible⟩)⟩
  · rw [device_thread]
  · rw [State.device]
    split <;> rfl

/-- A device asks or withdraws. -/
theorem request_keeps {pics pics' : Pair} {timed : Bool} (programmed : Programmed pics (mask timed)) {input : Input}
    (requested : pics' = pics.ask input ∨ pics' = pics.withdraw input) :
    Programmed pics' (mask timed) ∧ pics'.slave.isr = pics.slave.isr ∧ pics'.master.isr = pics.master.isr := by
  rcases requested with rfl | rfl <;> cases input with
  | master i => exact ⟨⟨configured_registers programmed.master _ _,programmed.slave⟩,rfl,rfl⟩
  | slave i => exact ⟨⟨programmed.master,configured_registers programmed.slave _ _⟩,rfl,rfl⟩

/-- The controllers change, but not what they have in service. -/
theorem settled_pics (settled : Settled s) {pics : Pair}
    (keeps : Programmed pics (mask s.timed) ∧ pics.slave.isr = s.ports.pics.slave.isr ∧
      pics.master.isr = s.ports.pics.master.isr) : Settled (s.setPics pics) := by
  obtain ⟨programmed,slave,master⟩ := keeps
  refine ⟨settled.orderly,programmed,settled.timed,slave.trans settled.slave,?_,?_⟩
  · exact fun i n handling => master.trans (settled.handling i n handling)
  · exact fun idle => master.trans (settled.idle idle)

theorem settled_pit (settled : Settled s) :
    Settled { s with ports := pit_init 50#32 s.ports, timed := true } := by
  have programmed := settled.programmed
  have unmasked : mask s.timed &&& 0xFE#8 = mask true := by
    cases s.timed <;> rfl
  rw [pit_init_programs 50#32 programmed.master.expects]
  refine ⟨settled.orderly,⟨?_,programmed.slave⟩,fun _ => rfl,settled.slave,settled.handling,settled.idle⟩
  refine ⟨programmed.master.expects,programmed.master.icw2,programmed.master.icw3,programmed.master.icw4,?_⟩
  change s.ports.pics.master.imr &&& 0xFE#8 = mask true
  rw [programmed.master.imr,unmasked]

/-- A handler has ended the only interrupt in service. -/
theorem settled_ended {m : KernelThreads.State} {d : Ports} {n : Vector} (orderly : Orderly m)
    (programmed : Programmed d.pics (mask s.timed)) (timed : m.mode ≠ .boot → s.timed = true) (slave : d.pics.slave.isr = ∅)
    (master : d.pics.master.isr = inputs n) (none : ∀ i n, ¬ Handling m i n) :
    Settled { s with machine := m, ports := acknowledged (BitVec.ofNat 32 n) d } := by
  rw [acknowledged_ends slave master]
  refine ⟨orderly,⟨configured_registers programmed.master _ _,programmed.slave⟩,timed,slave,?_,fun _ => rfl⟩
  exact fun i n handling => absurd handling (none i n)

theorem step_settled (bootUsed : is_used start (pageOf b.page_directory) = true) (data : p.data = KernelData b start)
    (inv : Inv p.linked b start s.machine) (settled : Settled s) (step : Step b p s signal s') :
    Inv p.linked b start s'.machine ∧ Settled s' := by
  have orderly := settled.orderly
  cases step with
  | ask input => exact ⟨inv,settled_pics settled (request_keeps settled.programmed (.inl rfl))⟩
  | withdraw input => exact ⟨inv,settled_pics settled (request_keeps settled.programmed (.inr rfl))⟩
  | pit boot => exact ⟨inv,settled_pit settled⟩
  | boot n scan_code pics boot gives =>
    obtain ⟨programmed,slave,master⟩ := taken_service settled (.inl boot) gives
    refine ⟨device_inv inv _ _,settled_ended (device_orderly orderly _ _) programmed ?_ slave master ?_⟩
    · rw [State.device]
      split <;> exact settled.timed
    · exact fun i n handling => listens_notHandling orderly (.inl boot) i n (device_handling handling)
  | nested n pics m gives serves =>
    obtain ⟨step,thread,mode,listens⟩ := serves_step serves
    obtain ⟨programmed,slave,master⟩ := taken_service settled listens gives
    refine ⟨(step_inv bootUsed data inv (by exact trivial) step).1,
      settled_ended (step_orderly inv orderly step) programmed ?_ slave master ?_⟩
    · rw [mode]
      exact settled.timed
    · exact fun i n handling => listens_notHandling orderly listens i n (handling_congr (by rw [thread]) handling)
  | arrives i e n error_code pics m gives kind step =>
    obtain ⟨user,_,_,thread⟩ := entered_current inv kind step
    have listens : Listens s.machine := .inr (.inl user)
    obtain ⟨programmed,slave,master⟩ := taken_service settled listens gives
    refine ⟨(step_inv bootUsed data inv (by exact trivial) step).1,step_orderly inv orderly step,programmed,?_,slave,?_,?_⟩
    · exact fun _ => settled.timed (by rw [user]; decide)
    · intro j n' handling
      rcases step_handling orderly.resumable step handling with before | ⟨e',error_code',entered,kind'⟩
      · exact absurd before (listens_notHandling orderly listens j n')
      · cases entered
        rw [kind] at kind'
        cases kind'
        exact master
    · exact fun none => absurd ⟨e,error_code,thread,kind⟩ (none i n)
  | handles i n event m handling admits step handled =>
    obtain ⟨e,error_code,inside,kind⟩ := handling_in orderly handling
    have past : Past (m.thread i) := by
      rcases handler_step orderly.resumable inside kind step with ⟨same,_⟩ | past
      · exact absurd same handled
      · exact past
    rw [handling_word inv inside kind]
    refine ⟨(step_inv bootUsed data inv admits step).1,
      settled_ended (step_orderly inv orderly step) settled.programmed ?_ settled.slave (settled.handling i n handling) ?_⟩
    · exact fun _ => settled.timed (by rw [inside.1]; decide)
    · intro j n' later
      rcases step_handling orderly.resumable step later with before | ⟨e',error_code',rfl,kind'⟩
      · obtain ⟨rfl,rfl⟩ := handling_unique orderly handling before
        exact past_notHandling past n' later
      · have user := (entered_current inv kind' step).1
        rw [inside.1] at user
        cases user
  | other event m admits step exception notHandled timed =>
    refine ⟨(step_inv bootUsed data inv admits step).1,step_orderly inv orderly step,settled.programmed,?_,settled.slave,?_,?_⟩
    · intro later
      by_cases boot : s.machine.mode = .boot
      · exact timed boot later
      · exact settled.timed boot
    · intro i n handling
      rcases step_handling orderly.resumable step handling with before | ⟨e,error_code,rfl,kind⟩
      · exact settled.handling i n before
      · have low := exception i e n error_code rfl kind
        have none : inputs n = ∅ := by
          rw [inputs,if_neg (fun same => by rw [same] at low; revert low; decide),
            if_neg (fun same => by rw [same] at low; revert low; decide)]
        have user := (entered_current inv kind step).1
        have idle : s.ports.pics.master.isr = ∅ := settled_idle settled (.inr (.inl user))
        rw [none]
        exact idle
    · intro none
      refine settled.idle (fun i n handling => none i n ?_)
      exact handling_congr (by rw [notHandled i n handling]) handling

end

/-! ### Runs from boot -/

section
variable {b : Setup} {fuel : Nat} {k : Kernel} {fs : FsInstance} (boot : kmain fuel b = some (k,fs)) {l : Linked} {r : Regs}
  (cs : r.cs = KERNEL_CODE_SEGMENT) {line : Keyboard.Line} {fb : Console.Fb} {d : Ports} {signals : List Signal} {s : State}
include boot cs

/-- The machine when `kmain` has called `process_init`, with the controllers as
    `idt_init` has left them. -/
def started (k : Kernel) (r : Regs) (line : Keyboard.Line) (fb : Console.Fb) (d : Ports) : State :=
  ⟨Transparency.booted k r line fb,pic_remap d,false⟩

omit boot cs in
theorem started_settled : Settled (started k r line fb d) := by
  obtain ⟨programmed,master,slave⟩ := pic_remap_programs d
  have none : ∀ i n, ¬ Handling (Transparency.booted k r line fb) i n := by
    rintro i n ⟨e,error_code,thread,_⟩
    cases thread
  refine ⟨⟨fun i n handling => absurd handling (none i n),?_⟩,programmed,?_,slave,?_,fun _ => master⟩
  · intro i e point call suspended
    cases suspended
  · exact fun later => absurd rfl later
  · exact fun i n handling => absurd handling (none i n)

theorem run_settled (run : Run b ⟨l,fs,KernelData b k.phys.frames⟩ (started k r line fb d) signals s) :
    Inv l b k.phys.frames s.machine ∧ Settled s := by
  induction run with
  | refl => exact ⟨Transparency.booted_inv boot cs,started_settled⟩
  | step _ step ih => exact step_settled (kmain_image boot bootDir_shares) rfl ih.1 ih.2 step

end

/-- What the controllers are to give: the timer, if it has been started, and else the
    keyboard. -/
def due (s : State) : Option (Fin 8) :=
  if 0 ∈ s.ports.pics.master.irr ∧ s.timed then some 0
  else if 1 ∈ s.ports.pics.master.irr then some 1
  else none

section
variable {b : Setup} {p : Program} {s s' : State} {signals : List Signal} {signal : Signal}

theorem request_due (settled : Settled s) (listens : Listens s.machine) : s.ports.pics.request = due s := by
  have alone := settled_alone settled
  have idle := settled_idle settled listens
  have opened : ∀ i, s.ports.pics.master.Open i ↔ (mask s.timed).getLsbD i = false := open_iff settled.programmed.master
  have timer : (mask s.timed).getLsbD (0 : Fin 8) = false ↔ s.timed = true := by
    cases s.timed <;> decide
  have keyboard : (mask s.timed).getLsbD (1 : Fin 8) = false := by
    cases s.timed <;> decide
  rw [due]
  split
  · rename_i both
    obtain ⟨j,first,asks⟩ := request_waits alone idle both.1 ((opened 0).mpr (timer.mpr both.2))
    rw [asks,Fin.le_zero_iff.mp first]
  · rename_i noTimer
    have notTimer : s.ports.pics.request ≠ some 0 := by
      intro asks
      obtain ⟨asked,isOpen,_⟩ := request_alone alone asks
      exact noTimer ⟨asked,timer.mp ((opened 0).mp isOpen)⟩
    split
    · rename_i asked
      obtain ⟨j,first,asks⟩ := request_waits alone idle asked ((opened 1).mpr keyboard)
      have second : j ≠ 0 := fun same => notTimer (same ▸ asks)
      rw [asks,show j = 1 by omega]
    · rename_i noKey
      cases asks : s.ports.pics.request with
      | none => rfl
      | some i =>
        obtain ⟨asked,isOpen,_⟩ := request_alone alone asks
        rcases mask_open ((opened i).mp isOpen) with rfl | rfl
        · exact absurd asks notTimer
        · exact absurd asked noKey

theorem acknowledged_irr (int_no : Word) (d : Ports) : (acknowledged int_no d).pics.master.irr = d.pics.master.irr := by
  have ended : d.pics.master.endOfInterrupt.irr = d.pics.master.irr := by
    rw [Chip.endOfInterrupt]
    split <;> rfl
  rw [acknowledged,pic_acknowledge_ends]
  split
  · exact ended
  · rfl

/-- What is taken is the request with the number of the vector. -/
theorem taken_asked (settled : Settled s) (listens : Listens s.machine) {n : Vector} {pics : Pair} (gives : Gives s n pics)
    {i : Fin 8} (asked : i ∈ s.ports.pics.master.irr) (other : n.val ≠ 32+i.val) : i ∈ pics.master.irr := by
  obtain ⟨rfl,vector⟩ := gives_request settled listens gives
  cases asks : s.ports.pics.request with
  | none => exact asked
  | some j =>
    rw [asks] at vector
    have notSame : i ≠ j := fun same => other (by rw [same]; exact vector)
    exact Finset.mem_erase.mpr ⟨notSame,asked⟩

/-- A request goes when the device withdraws it or the processor takes it. -/
theorem step_asked {start : Frames} (inv : Inv p.linked b start s.machine) (settled : Settled s)
    (step : Step b p s signal s') {i : Fin 8} (asked : i ∈ s.ports.pics.master.irr)
    (notTaken : ∀ n, signal = .taken n → n.val ≠ 32+i.val) (notWithdrawn : signal ≠ .withdrawn (.master i)) :
    i ∈ s'.ports.pics.master.irr := by
  cases step with
  | ask input =>
    cases input with
    | master j => exact Finset.mem_insert_of_mem asked
    | slave j => exact asked
  | withdraw input =>
    cases input with
    | master j =>
      have other : i ≠ j := fun same => notWithdrawn (by rw [same])
      exact Finset.mem_erase.mpr ⟨other,asked⟩
    | slave j => exact asked
  | pit boot =>
    rw [pit_init_programs 50#32 settled.programmed.master.expects]
    exact asked
  | boot n scan_code pics boot gives =>
    rw [acknowledged_irr]
    exact taken_asked settled (.inl boot) gives asked (notTaken n rfl)
  | nested n pics m gives serves =>
    rw [acknowledged_irr]
    exact taken_asked settled (serves_step serves).2.2.2 gives asked (notTaken n rfl)
  | arrives j e n error_code pics m gives kind step =>
    have user := (entered_current inv kind step).1
    exact taken_asked settled (.inr (.inl user)) gives asked (notTaken n rfl)
  | handles j n event m handling admits step handled =>
    rw [acknowledged_irr]
    exact asked
  | other event m admits step exception notHandled timed => exact asked

theorem run_append {t u : State} {more : List Signal} (run : Run b p s signals t) (later : Run b p t more u) :
    Run b p s (signals ++ more) u := by
  induction later with
  | refl => rwa [List.append_nil]
  | step _ step ih =>
    rw [← List.append_assoc]
    exact .step ih step

end

section
variable {b : Setup} {fuel : Nat} {k : Kernel} {fs : FsInstance} (boot : kmain fuel b = some (k,fs)) {l : Linked} {r : Regs}
  (cs : r.cs = KERNEL_CODE_SEGMENT) {line : Keyboard.Line} {fb : Console.Fb} {d : Ports} {signals : List Signal} {s : State}
include boot cs

/-- In every run from boot in which programs fit and pointers lead to memory of the caller,
    the controllers have in service what a handler has not acknowledged yet, and nothing
    else. When the processor takes interrupts, no handler is left in that state, in no
    process. -/
theorem in_service_exact (run : Run b ⟨l,fs,KernelData b k.phys.frames⟩ (started k r line fb d) signals s) :
    s.ports.pics.slave.isr = ∅ ∧
    (∀ i n, Handling s.machine i n → s.ports.pics.master.isr = inputs n ∧ s.machine.cpu.kernel.current = some i) ∧
    ((∀ i n, ¬ Handling s.machine i n) → s.ports.pics.master.isr = ∅) ∧
    (Listens s.machine → ∀ i n, ¬ Handling s.machine i n) := by
  obtain ⟨_,settled⟩ := run_settled boot cs run
  refine ⟨settled.slave,fun i n handling => ?_,settled.idle,listens_notHandling settled.orderly⟩
  exact ⟨settled.handling i n handling,(settled.orderly.current i n handling).2⟩

/-- In such a run, whenever the processor takes interrupts, the controllers give it the timer
    if it has asked and `pit_init` has run, else the keyboard if it has asked, and else the
    vector 39 of an interrupt that is gone, which leaves them as they are. -/
theorem interrupts_delivered (run : Run b ⟨l,fs,KernelData b k.phys.frames⟩ (started k r line fb d) signals s)
    (listens : Listens s.machine) :
    s.ports.pics.acknowledge = some (BitVec.ofNat 8 (32+((due s).getD 7).val),s.ports.pics.taken (due s)) := by
  obtain ⟨_,settled⟩ := run_settled boot cs run
  rw [acknowledge_idle (settled_alone settled) (settled_idle settled listens),programmed_gives settled.programmed,
    request_due settled listens]

/-- In such a run no request is lost: it stays until the device withdraws it or the processor
    takes its vector. -/
theorem requests_kept (run : Run b ⟨l,fs,KernelData b k.phys.frames⟩ (started k r line fb d) signals s) {i : Fin 8}
    (asked : i ∈ s.ports.pics.master.irr) {more : List Signal} {s' : State}
    (later : Run b ⟨l,fs,KernelData b k.phys.frames⟩ s more s') (notTaken : ∀ n, n.val = 32+i.val → .taken n ∉ more)
    (notWithdrawn : .withdrawn (.master i) ∉ more) : i ∈ s'.ports.pics.master.irr := by
  induction later with
  | refl => exact asked
  | @step more t u signal before step ih =>
    have kept := ih (fun n number taken => notTaken n number (List.mem_append_left _ taken))
      (fun withdrawn => notWithdrawn (List.mem_append_left _ withdrawn))
    obtain ⟨inv,settled⟩ := run_settled boot cs (run_append run before)
    refine step_asked inv settled step kept ?_ ?_
    · rintro n rfl number
      exact notTaken n number (by simp)
    · rintro rfl
      exact notWithdrawn (by simp)

end

/-! ### The first process -/

section
variable {b : Setup} {fuel : Nat} {k : Kernel} {fs : FsInstance} {l : Linked} {r : Regs} (line : Keyboard.Line)
  (fb : Console.Fb)

/-- The first program is created and launched, and the timer asks for an interrupt. -/
theorem first_timed (boot : kmain fuel b = some (k,fs)) (cs : r.cs = KERNEL_CODE_SEGMENT) {name : List Byte}
    (fits : Fits b l.process_start_trampoline fs ⟨k,[]⟩ (.create name)) {c : Creation}
    (called : process_create (Paging.paged k.cr3) l.process_start_trampoline fs name k = c) {i : Slot} (slot : c.slot = some i)
    (aligned : r.esp.toNat % 4 = 0) (stack : ∀ a, ThreeWords r.esp a → KernelData b k.phys.frames (pageOf a)) (d : Ports) :
    ∃ signals s, Run b ⟨l,fs,KernelData b k.phys.frames⟩ (started k r line fb d) signals s ∧ s.machine.mode = .user ∧
      s.machine.cpu.kernel.current = some i ∧ 0 ∈ s.ports.pics.master.irr ∧ s.timed = true := by
  obtain ⟨t,r',m,creates,jumps,launching,isFirst,starts,user,current,_⟩ := Transparency.first_launched line fb (fun _ own => own)
    boot cs fits called slot aligned stack
  have none : ∀ i n, ¬ Handling (Transparency.booted k r line fb) i n := by
    rintro i n ⟨e,error_code,thread,_⟩
    cases thread
  -- `kmain` creates the process, starts the timer and leaves the boot stack.
  have created := Run.step (b := b) .refl (.other (started k r line fb d) (.created name) _ (by exact fits) creates (by simp)
    (fun j n handling => absurd handling (none j n)) (fun _ later => absurd rfl later))
  have timed := Run.step created (.pit _ rfl)
  have quiet := listens_notHandling (run_settled boot cs timed).2.orderly (.inl rfl)
  have jumped := Run.step timed (.other _ .silent t trivial jumps (by simp) (fun j n handling => absurd handling (quiet j n))
    (fun _ _ => rfl))
  have quiet := listens_notHandling (run_settled boot cs jumped).2.orderly (.inr (.inr ⟨i,.inl ⟨launching,isFirst⟩⟩))
  have run := Run.step jumped (.other _ _ m (by exact trivial) starts (by simp) (fun j n handling => absurd handling (quiet j n))
    (fun _ _ => rfl))
  exact ⟨_,_,.step run (.ask _ (.master 0)),user,current,Finset.mem_insert_self ..,rfl⟩

end

/-- The chips as the firmware leaves them, with a key that has been pressed. -/
def firmware : Ports :=
  ⟨⟨⟨{1},∅,0xB8#8,0x11#8,0x08#8,0x04#8,0x01#8,.mask⟩,⟨∅,∅,0x9F#8,0x11#8,0x70#8,0x02#8,0x01#8,.mask⟩⟩,⟨0x36#8,none,0#16⟩⟩

/-- The small PC when `kmain` has called `process_init`. -/
def pcStarted (frames : Frames) : State :=
  started (pcKernel frames) Transparency.bootRegs Keyboard.empty Syscalls.clean firmware

/-- `hello` runs on the small PC, and the timer asks for an interrupt. -/
theorem hello_timed : ∃ (frames : Frames) (signals : List Signal) (s : State) (i : Slot),
    kmain 3 pcSetup = some (pcKernel frames,pcFs) ∧
    Run pcSetup (Transparency.pcProgram frames) (pcStarted frames) signals s ∧ s.machine.mode = .user ∧
    s.machine.cpu.kernel.current = some i ∧ 0 ∈ s.ports.pics.master.irr ∧ s.timed = true := by
  obtain ⟨frames,ended,boot⟩ := pc_kmain
  obtain ⟨fits,filled,_⟩ := hello_fits ended 0x100010#32
  obtain ⟨i,slot⟩ := Option.ne_none_iff_exists'.mp filled
  obtain ⟨signals,s,run,rest⟩ := first_timed (l := Transparency.pcLinked) (r := Transparency.bootRegs)
    Keyboard.empty Syscalls.clean boot rfl fits rfl slot (by decide)
    (fun a inStack => Transparency.boot_stack boot Transparency.image_stack (by decide) inStack) firmware
  exact ⟨frames,signals,s,i,boot,run,rest⟩

/-- The timer interrupts `hello`, and is in service. -/
theorem in_service_exact_pc : ∃ (frames : Frames) (signals : List Signal) (s : State) (i : Slot),
    Run pcSetup (Transparency.pcProgram frames) (pcStarted frames) signals s ∧ Handling s.machine i 32 ∧
    s.ports.pics.master.isr = {0} := by
  obtain ⟨frames,signals,s,i,boot,run,user,current,asked,timed⟩ := hello_timed
  have listens : Listens s.machine := .inr (.inl user)
  obtain ⟨inv,settled⟩ := run_settled boot rfl run
  have gives : Gives s 32 (s.ports.pics.taken (some 0)) := by
    have isDue : s.ports.pics.request = some 0 := by
      rw [request_due settled listens,due,if_pos ⟨asked,timed⟩]
    rw [Gives,acknowledge_idle (settled_alone settled) (settled_idle settled listens),programmed_gives settled.programmed,
      isDue]
    rfl
  obtain ⟨m,enters,⟨atCall,_,_⟩,_⟩ := Transparency.interrupt_arrives (p := Transparency.pcProgram frames) inv user current
    32 0#32
  have arrived := Run.step run (.arrives s i _ 32 0#32 _ m gives rfl enters)
  have handling : Handling m i 32 := ⟨_,_,atCall.2.2,rfl⟩
  exact ⟨frames,_,_,i,arrived,handling,((in_service_exact boot rfl arrived).2.1 i 32 handling).1⟩

/-- The timer asks while `hello` runs, and the processor is given its vector. -/
theorem interrupts_delivered_pc : ∃ (frames : Frames) (signals : List Signal) (s : State),
    Run pcSetup (Transparency.pcProgram frames) (pcStarted frames) signals s ∧ s.machine.mode = .user ∧
    s.ports.pics.acknowledge = some (32#8,s.ports.pics.taken (some 0)) := by
  obtain ⟨frames,signals,s,i,boot,run,user,_,asked,timed⟩ := hello_timed
  have delivered := interrupts_delivered boot rfl run (.inr (.inl user))
  rw [due,if_pos ⟨asked,timed⟩] at delivered
  exact ⟨frames,signals,s,run,user,delivered⟩

/-- The timer has asked while `hello` runs, and the keyboard asks too. -/
theorem requests_kept_pc : ∃ (frames : Frames) (signals : List Signal) (s : State),
    Run pcSetup (Transparency.pcProgram frames) (pcStarted frames) (signals ++ [.asked (.master 1)]) s ∧
    0 ∈ s.ports.pics.master.irr := by
  obtain ⟨frames,signals,s,i,boot,run,_,_,asked,_⟩ := hello_timed
  have later : Run pcSetup (Transparency.pcProgram frames) s [.asked (.master 1)] _ := .step .refl (.ask s (.master 1))
  exact ⟨frames,signals,_,run_append run later,requests_kept boot rfl run asked later (by simp) (by simp)⟩

end SoKernel.Interrupts
