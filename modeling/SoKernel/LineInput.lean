import SoKernel.System
import SoKernel.Kmain

/-!
Lines of input. The lines that a line editor makes of the keys are handed to the
callers of `SYS_READ` one by one, each line to the one caller that takes it away: its
bytes are in the caller's buffer and their number is in EAX. The editor here knows
nothing of the driver's buffer, of processes or of waiting.
-/
namespace SoKernel.LineInput
open SoKernel.Words SoKernel.Paging SoKernel.Keyboard SoKernel.System
set_option linter.unusedSimpArgs false

/-! ### The editor -/

/-- The characters held, whether they are a finished line that nobody has taken yet,
    and all the lines that have been finished, the oldest first. -/
structure Editor where
  held : List Byte
  finished : Bool
  lines : List (List Byte)

abbrev LONGEST : Nat := 127
abbrev NEWLINE : Byte := 10#8
abbrev BACKSPACE : Byte := 8#8

/-- A character from the keyboard. -/
def Editor.type (e : Editor) (c : Byte) : Editor :=
  if c = NEWLINE then { e with finished := true, lines := e.lines ++ [e.held] }
  else if c = BACKSPACE then { e with held := e.held.dropLast }
  else if e.held.length < LONGEST then { e with held := e.held ++ [c] }
  else e

/-- A scan code. Codes from 128 on are for keys that are released, and keys are
    dropped while a finished line has not been taken. -/
def Editor.key (e : Editor) (scan_code : Byte) : Editor :=
  if 128 ≤ scan_code.toNat ∨ scancode_to_ascii scan_code = 0#8 ∨ e.finished = true then e
  else e.type (scancode_to_ascii scan_code)

/-- The finished line is taken away. -/
def Editor.take (e : Editor) : Editor := { e with held := [], finished := false }

/-! ### Histories -/

/-- The buffer is a piece of ordinary memory: its bytes are different ones, and where
    they are does not depend on what is in them. -/
structure Plain (x : Access) (m : Memory) (buf : Word) (n : Nat) : Prop where
  fixed : ∀ m', (∀ a, (∀ j < n, a ≠ x m (buf+BitVec.ofNat 32 j)) → m' a = m a) →
    ∀ j < n, x m' (buf+BitVec.ofNat 32 j) = x m (buf+BitVec.ofNat 32 j)
  apart : ∀ i < n, ∀ j < n, x m (buf+BitVec.ofNat 32 i) = x m (buf+BitVec.ofNat 32 j) → i = j

/-- What is found in memory from an address on. -/
def found (x : Access) (m : Memory) (buf : Word) (n : Nat) : List Byte :=
  (List.range n).map (fun i => load8 x m (buf+BitVec.ofNat 32 i))

/-- A call of `SYS_READ` that has returned: its limit, EAX, and as many bytes of the
    caller's buffer as EAX says. -/
structure Read where
  max : Word
  eax : Word
  bytes : List Byte
  plain : Prop

/-- What is seen of the input. -/
inductive Input
  | key (scan_code : Byte)
  | read (call : Read)

def Editor.see (e : Editor) : Input → Editor
  | .key scan_code => e.key scan_code
  | .read _ => e.take

/-- The calls of `SYS_READ` that have returned, in order. -/
def reads (history : List Input) : List Read :=
  history.filterMap (fun input => match input with
    | .key _ => none
    | .read call => some call)

/-- The call has got the line, cut to its limit. -/
structure Got (call : Read) (line : List Byte) : Prop where
  eax : call.eax.toNat = (line.take call.max.toNat).length
  bytes : call.plain → call.bytes = line.take call.max.toNat

/-- A step, and what is seen of the input: a key, or EAX and the buffer when `SYS_READ`
    has returned. A step that leaves the line alone need not be seen. -/
inductive Sees (mach : Machine) (s : State) : State → List Input → Prop
  | key (scan_code : Byte) (here : s.cpu = .boot ∨ s.cpu = .user ∨ ∃ call, s.cpu = .asleep call) :
      Sees mach s (key s scan_code) [.key scan_code]
  | read (buf max eax : Word) {t : State} (here : s.cpu = .test (.read buf max)) (step : Step mach s (.read eax) t) :
      Sees mach s t [.read ⟨max,eax,found (mach.access s.kernel) t.kernel.phys.mem buf eax.toNat,
        Plain (mach.access s.kernel) s.kernel.phys.mem buf eax.toNat⟩]
  | other {event : Event} {t : State} (step : Step mach s event t) (alone : t.line = s.line) : Sees mach s t []

inductive Observed (mach : Machine) (s : State) : List Input → State → Prop
  | refl : Observed mach s [] s
  | step {history seen : List Input} {t u : State} :
      Observed mach s history t → Sees mach t u seen → Observed mach s (history ++ seen) u

theorem yield_line (s : State) (esp : Word) (point : Point) : (yield s esp point).line = s.line := by
  rw [yield]
  split
  · rfl
  · split <;> rfl

/-- A step changes the line by a key or by a read, if at all. -/
theorem step_line {mach : Machine} {s t : State} {event : Event} (step : Step mach s event t) :
    t.line = s.line ∨
      (∃ scan_code, (s.cpu = .boot ∨ s.cpu = .user ∨ ∃ call, s.cpu = .asleep call) ∧ t = key s scan_code) ∨
      ∃ buf max eax, s.cpu = .test (.read buf max) ∧ event = .read eax := by
  cases step with
  | bootKey scan_code boot => exact .inr (.inl ⟨scan_code,.inl boot,rfl⟩)
  | keyUser scan_code user => exact .inr (.inl ⟨scan_code,.inr (.inl user),rfl⟩)
  | keyAsleep call scan_code here => exact .inr (.inl ⟨scan_code,.inr (.inr ⟨call,here⟩),rfl⟩)
  | testReady call here isReady =>
    cases call with
    | read buf max => exact .inr (.inr ⟨buf,max,_,here,rfl⟩)
    | wait pid => exact .inl rfl
  | timer esp user => exact .inl (yield_line ..)
  | sysYield esp user => exact .inl (yield_line ..)
  | sysExit cur esp user current => exact .inl (yield_line ..)
  | testNotReady call esp here notReady => exact .inl (yield_line ..)
  | _ => exact .inl rfl

/-- Something is seen of every step that changes the line. -/
theorem step_seen {mach : Machine} {s t : State} {event : Event} (step : Step mach s event t) :
    ∃ seen, Sees mach s t seen ∧ ∀ call ∈ reads seen, ∃ buf, s.cpu = .test (.read buf call.max) ∧ event = .read call.eax ∧
      call.plain = Plain (mach.access s.kernel) s.kernel.phys.mem buf call.eax.toNat := by
  rcases step_line step with alone | ⟨scan_code,here,rfl⟩ | ⟨buf,max,eax,here,rfl⟩
  · exact ⟨_,.other step alone,by simp [reads]⟩
  · exact ⟨_,.key scan_code here,by simp [reads]⟩
  · refine ⟨_,.read buf max eax here step,?_⟩
    intro call member
    rw [reads,List.filterMap_cons,List.filterMap_nil,List.mem_singleton] at member
    subst member
    exact ⟨buf,here,rfl,rfl⟩

theorem run_observed {mach : Machine} {s t : State} {events : List Event} (run : Run mach s events t) :
    ∃ history, Observed mach s history t := by
  induction run with
  | refl => exact ⟨[],.refl⟩
  | step _ step ih =>
    obtain ⟨history,observed⟩ := ih
    obtain ⟨seen,sees,_⟩ := step_seen step
    exact ⟨_,observed.step sees⟩

/-! ### The driver and the editor -/

/-- The characters in the driver's buffer. -/
def contents (kb : Line) : List Byte := (List.range kb.kb_line_len).map kb.kb_line_buf

@[simp] theorem length_contents (kb : Line) : (contents kb).length = kb.kb_line_len := by simp [contents]

/-- The editor that has just been shown the driver's buffer. -/
def editor (kb : Line) : Editor := ⟨contents kb,kb.kb_line_complete,if kb.kb_line_complete then [contents kb] else []⟩

/-- The driver holds what the editor holds. -/
structure Holds (kb : Line) (e : Editor) : Prop where
  held : contents kb = e.held
  finished : kb.kb_line_complete = e.finished

theorem contents_append (kb : Line) (c : Byte) :
    contents { kb with kb_line_buf := Function.update kb.kb_line_buf kb.kb_line_len c, kb_line_len := kb.kb_line_len+1 } =
      contents kb ++ [c] := by
  simp only [contents,List.range_succ,List.map_append,List.map_singleton,Function.update_self]
  congr 1
  refine List.map_congr_left (fun j below => ?_)
  rw [List.mem_range] at below
  exact Function.update_of_ne (by omega) ..

theorem contents_dropLast (kb : Line) : contents { kb with kb_line_len := kb.kb_line_len-1 } = (contents kb).dropLast := by
  simp only [contents]
  cases kb.kb_line_len with
  | zero => rfl
  | succ n => rw [List.range_succ,List.map_append,List.map_singleton,List.dropLast_concat,Nat.add_sub_cancel]

theorem released_iff (scan_code : Byte) : scan_code &&& 0x80#8 ≠ 0#8 ↔ 128 ≤ scan_code.toNat := by
  have table : ∀ n < 256, (BitVec.ofNat 8 n &&& 0x80#8 ≠ 0#8 ↔ 128 ≤ n) := by decide +kernel
  simpa using table scan_code.toNat scan_code.isLt

/-- A keyboard interrupt does to the driver's line what the key does to the editor's. -/
theorem handler_holds {kb : Line} {e : Editor} (holds : Holds kb e) (scan_code : Byte) :
    Holds (keyboard_handler kb scan_code).1 (e.key scan_code) := by
  have held := holds.held
  have finished := holds.finished
  rw [keyboard_handler,Editor.key]
  by_cases released : scan_code &&& 0x80#8 ≠ 0#8
  · rw [if_pos released,if_pos (.inl ((released_iff _).mp released))]
    exact holds
  rw [if_neg released]
  by_cases noEntry : scancode_to_ascii scan_code = 0#8
  · simp only [if_pos noEntry]
    rw [if_pos (.inr (.inl noEntry))]
    exact holds
  simp only [if_neg noEntry]
  by_cases complete : kb.kb_line_complete = true
  · rw [if_pos complete,if_pos (.inr (.inr (finished.symm.trans complete)))]
    exact holds
  have dropped : ¬ (128 ≤ scan_code.toNat ∨ scancode_to_ascii scan_code = 0#8 ∨ e.finished = true) := by
    rintro (late | zero | pending)
    · exact released ((released_iff _).mpr late)
    · exact noEntry zero
    · exact complete (finished.trans pending)
  rw [if_neg complete,if_neg dropped,Editor.type]
  by_cases enter : scancode_to_ascii scan_code = 10#8
  · rw [if_pos enter,if_pos enter]
    exact ⟨held,rfl⟩
  rw [if_neg enter,if_neg enter]
  by_cases back : scancode_to_ascii scan_code = 8#8
  · rw [if_pos back,if_pos back]
    by_cases some : 0 < kb.kb_line_len
    · rw [if_pos some]
      exact ⟨(contents_dropLast kb).trans (by rw [held]),finished⟩
    · have none : e.held = [] := by
        rw [← held,← List.length_eq_zero_iff,length_contents]
        omega
      rw [if_neg some]
      exact ⟨held.trans (by rw [none]; rfl),finished⟩
  rw [if_neg back,if_neg back,← held,length_contents]
  by_cases room : kb.kb_line_len < KB_LINE_MAX-1
  · rw [if_pos room,if_pos (show kb.kb_line_len < LONGEST from room)]
    exact ⟨contents_append kb _,finished⟩
  · rw [if_neg room,if_neg (show ¬ kb.kb_line_len < LONGEST from room)]
    exact holds

/-- A key finishes at most one line, the one that is held. -/
theorem key_lines (e : Editor) (scan_code : Byte) {delivered : List (List Byte)}
    (lines : e.lines = delivered ++ if e.finished then [e.held] else []) :
    (e.key scan_code).lines = delivered ++ if (e.key scan_code).finished then [(e.key scan_code).held] else [] := by
  rw [Editor.key]
  by_cases dropped : 128 ≤ scan_code.toNat ∨ scancode_to_ascii scan_code = 0#8 ∨ e.finished = true
  · rw [if_pos dropped]
    exact lines
  have still : e.finished = false := by
    simp only [not_or,Bool.not_eq_true] at dropped
    exact dropped.2.2
  simp only [still,Bool.false_eq_true,if_false,List.append_nil] at lines
  rw [if_neg dropped,Editor.type]
  split
  · simp [lines]
  split
  · simp [lines,still]
  split
  · simp [lines,still]
  · simp [lines,still]

/-- What `SYS_READ` returns is the line, cut to the caller's limit. -/
theorem read_line_result (kb : Line) (max : Word) : (keyboard_read_line kb max).1 = (contents kb).take max.toNat := by
  simp only [keyboard_read_line,contents]
  rw [← List.map_take,List.take_range]
  congr 2
  split <;> omega

/-! ### The caller's buffer -/

section Buffer
variable {x : Access} {m : Memory} {buf : Word} {bytes : List Byte}

/-- The bytes are stored one after the other. -/
def stores (x : Access) (m : Memory) (buf : Word) (bytes : List Byte) (n : Nat) : Memory :=
  n.fold (fun i _ m => store8 x m (buf+BitVec.ofNat 32 i) (bytes[i]?.getD 0#8)) m

/-- The first bytes are where they belong, and no other memory has changed. -/
theorem stores_plain (plain : Plain x m buf bytes.length) {n : Nat} (within : n ≤ bytes.length) :
    (∀ a, (∀ j < bytes.length, a ≠ x m (buf+BitVec.ofNat 32 j)) → stores x m buf bytes n a = m a) ∧
      ∀ i < n, stores x m buf bytes n (x m (buf+BitVec.ofNat 32 i)) = bytes[i]?.getD 0#8 := by
  induction n with
  | zero => exact ⟨fun _ _ => rfl,fun i below => absurd below (Nat.not_lt_zero i)⟩
  | succ n ih =>
    obtain ⟨off,there⟩ := ih (by omega)
    have place : x (stores x m buf bytes n) (buf+BitVec.ofNat 32 n) = x m (buf+BitVec.ofNat 32 n) :=
      plain.fixed _ off n (by omega)
    have next : stores x m buf bytes (n+1) =
        write8 (stores x m buf bytes n) (x m (buf+BitVec.ofNat 32 n)) (bytes[n]?.getD 0#8) := by
      rw [stores,Nat.fold_succ,← stores,store8,place]
    rw [next]
    constructor
    · intro a outside
      rw [write8,if_neg (outside n (by omega)),off a outside]
    · intro i below
      by_cases last : i = n
      · rw [last,write8,if_pos rfl]
      · have other : x m (buf+BitVec.ofNat 32 i) ≠ x m (buf+BitVec.ofNat 32 n) := fun same =>
          last (plain.apart i (by omega) n (by omega) same)
        rw [write8,if_neg other]
        exact there i (by omega)

/-- What has been stored is found. -/
theorem found_stores (plain : Plain x m buf bytes.length) :
    found x (stores x m buf bytes bytes.length) buf bytes.length = bytes := by
  obtain ⟨off,there⟩ := stores_plain plain (le_refl _)
  refine List.ext_getElem (by simp [found]) (fun i below inside => ?_)
  simp only [found,List.getElem_map,List.getElem_range,load8]
  rw [plain.fixed _ off i inside,there i inside,List.getElem?_eq_getElem inside,Option.getD_some]

/-- Physical memory is ordinary memory. -/
theorem plain_physical (m : Memory) (buf : Word) {n : Nat} (short : n ≤ 2^32) : Plain physical m buf n :=
  ⟨fun _ _ _ _ => rfl,fun _ below _ inside => offset_inj (by omega) (by omega)⟩

end Buffer

/-- `SYS_READ` gives its caller the driver's line. -/
theorem read_got {mach : Machine} {s t : State} {buf max eax : Word} (here : s.cpu = .test (.read buf max))
    (step : Step mach s (.read eax) t) :
    t = finish mach s (.read buf max) ∧ keyboard_has_line s.line = true ∧
      Got ⟨max,eax,found (mach.access s.kernel) t.kernel.phys.mem buf eax.toNat,
        Plain (mach.access s.kernel) s.kernel.phys.mem buf eax.toNat⟩ (contents s.line) := by
  obtain ⟨isEax,isNext,isReady⟩ : eax = BitVec.ofNat 32 (keyboard_read_line s.line max).1.length ∧
      t = finish mach s (.read buf max) ∧ keyboard_has_line s.line = true := by
    generalize shown : Event.read eax = event at step
    cases step with
    | testReady call there isReady =>
      rw [here] at there
      cases there
      cases shown
      exact ⟨rfl,rfl,isReady⟩
    | _ => cases shown
  have length : eax.toNat = (keyboard_read_line s.line max).1.length := by
    have short : (keyboard_read_line s.line max).1.length ≤ max.toNat := by
      rw [read_line_result]
      exact List.length_take_le ..
    have bound := max.isLt
    rw [isEax,BitVec.toNat_ofNat,Nat.mod_eq_of_lt (by omega)]
  refine ⟨isNext,isReady,?_,fun plain => ?_⟩
  · rw [← read_line_result]
    exact length
  · simp only [length] at plain ⊢
    rw [← read_line_result,isNext]
    exact found_stores plain

/-! ### Runs -/

/-- The driver holds what the editor holds; the lines that were finished are those that
    were delivered, each cut to the limit of its reader, and the one that is waiting. -/
structure Delivered (rs : List Read) (kb : Line) (e : Editor) : Prop where
  holds : Holds kb e
  lines : ∃ delivered, e.lines = (delivered ++ if e.finished then [e.held] else []) ∧ List.Forall₂ Got rs delivered

theorem sees_delivered {mach : Machine} {s t : State} {rs : List Read} {e : Editor} {seen : List Input}
    (inv : Delivered rs s.line e) (sees : Sees mach s t seen) :
    Delivered (rs ++ reads seen) t.line (seen.foldl Editor.see e) := by
  obtain ⟨delivered,lines,all⟩ := inv.lines
  cases sees with
  | key scan_code here =>
    refine ⟨handler_holds inv.holds scan_code,delivered,key_lines e scan_code lines,?_⟩
    simpa [reads] using all
  | read buf max eax here step =>
    obtain ⟨next,complete,got⟩ := read_got here step
    have finished : e.finished = true := inv.holds.finished.symm.trans complete
    rw [finished,if_pos rfl] at lines
    rw [inv.holds.held] at got
    refine ⟨?_,delivered ++ [e.held],?_,List.rel_append all (.cons got .nil)⟩
    · rw [next]
      exact ⟨rfl,rfl⟩
    · simpa [Editor.see,Editor.take] using lines
  | other step alone =>
    rw [alone]
    simpa [reads] using inv

theorem observed_delivered {mach : Machine} {s t : State} {history : List Input} (observed : Observed mach s history t) :
    Delivered (reads history) t.line (history.foldl Editor.see (editor s.line)) := by
  induction observed with
  | refl => exact ⟨⟨rfl,rfl⟩,[],rfl,.nil⟩
  | step _ sees ih =>
    rw [reads,List.filterMap_append,List.foldl_append]
    exact sees_delivered ih sees

/-- Over every run the calls of `SYS_READ` that have returned have got, in this order,
    the lines that the editor has made of the keys, each cut to the limit of its call:
    their length in EAX and, in ordinary memory, their bytes in the buffer. The only
    finished line that nobody has got is the one the driver still holds. -/
theorem lines_delivered_once {mach : Machine} {s t : State} {history : List Input} (observed : Observed mach s history t) :
    ∃ delivered, (history.foldl Editor.see (editor s.line)).lines =
        (delivered ++ if keyboard_has_line t.line then [contents t.line] else []) ∧
      List.Forall₂ Got (reads history) delivered := by
  obtain ⟨⟨held,finished⟩,delivered,lines,all⟩ := observed_delivered observed
  refine ⟨delivered,?_,all⟩
  rw [lines,keyboard_has_line,held,finished]

/-- The small PC in user mode, with an empty line. -/
def typing : State := ⟨Kmain.pcKernel PfaInit.all_used,Kmain.pcFs,Keyboard.empty,[],.user,fun _ => .user⟩

/-- The line "ab" is typed and one byte of it is read, to 0x5000. Then "c" is typed, and
    read to 0x6000 with room for more. -/
def sample : List Input :=
  [.key 0x1E#8,.key 0x30#8,.key 0x1C#8,.read ⟨1#32,1#32,[0x61#8],Plain physical typing.kernel.phys.mem 0x5000#32 1⟩,
    .key 0x2E#8,.key 0x1C#8,
    .read ⟨128#32,1#32,[0x63#8],Plain physical (stores physical typing.kernel.phys.mem 0x5000#32 [0x61#8] 1) 0x6000#32 1⟩]

theorem sample_observed : ∃ t, Observed ⟨fun _ => physical,0#32⟩ typing sample t ∧ keyboard_has_line t.line = false := by
  have ab : Observed ⟨fun _ => physical,0#32⟩ typing [.key 0x1E#8,.key 0x30#8,.key 0x1C#8] _ :=
    .step (.step (.step .refl (.key 0x1E#8 (.inr (.inl rfl)))) (.key 0x30#8 (.inr (.inl rfl))))
      (.key 0x1C#8 (.inr (.inl rfl)))
  have asks := ab.step (.other (.sysWaiting _ (.read 0x5000#32 1#32) rfl) rfl)
  have gets := asks.step (.read 0x5000#32 1#32 1#32 rfl (.testReady _ (.read 0x5000#32 1#32) rfl (by decide)))
  have c := (gets.step (.key 0x2E#8 (.inr (.inl rfl)))).step (.key 0x1C#8 (.inr (.inl rfl)))
  have again := c.step (.other (.sysWaiting _ (.read 0x6000#32 128#32) rfl) rfl)
  have getsAgain := again.step (.read 0x6000#32 128#32 1#32 rfl (.testReady _ (.read 0x6000#32 128#32) rfl (by decide)))
  exact ⟨_,getsAgain,rfl⟩

theorem lines_delivered_once_sample : ∃ delivered,
    (sample.foldl Editor.see (editor typing.line)).lines = delivered ∧ delivered = [[0x61#8,0x62#8],[0x63#8]] ∧
      List.Forall₂ Got (reads sample) delivered ∧ ∀ call ∈ reads sample, call.plain := by
  obtain ⟨t,observed,none⟩ := sample_observed
  obtain ⟨delivered,lines,all⟩ := lines_delivered_once observed
  simp only [none,Bool.false_eq_true,if_false,List.append_nil] at lines
  refine ⟨delivered,lines,lines.symm.trans (by decide),all,?_⟩
  intro call member
  simp only [sample,reads,List.filterMap_cons,List.filterMap_nil,List.mem_cons,List.not_mem_nil,or_false] at member
  rcases member with rfl | rfl
  · exact plain_physical _ _ (by decide)
  · exact plain_physical _ _ (by decide)

end SoKernel.LineInput
