import SoKernel.Dialogue
import SoKernel.Mkfs
import SoKernel.Ulib

/-!
User programs and the kernel as they see it. A program computes on its own memory and
asks the kernel for the rest, with the wrappers of `programs/syscall.h`. For each call
there is a contract: what the program finds in `eax` and in its memory afterwards. What
can be seen of a program from outside are the texts it prints, the lines it is given and
the processes it starts, and not where they are in its memory.
-/
namespace SoKernel.Userland
open SoKernel.Words SoKernel.Fs SoKernel.Process SoKernel.Syscalls SoKernel.CallerBuffers SoKernel.Ulib SoKernel.Dialogue
set_option linter.unusedSimpArgs false

/-! ### Calls -/

inductive Call
  | write (buf len : Word)
  | exit
  | yield
  | spawn (name : Word)
  | read (buf max : Word)
  | wait (pid : Word)
  | getprocs (buf max : Word)
  | listfiles (buf max : Word)
  | clear

/-- The registers at `int 0x80`. A wrapper leaves those that its call does not use as the
    compiler has left them. -/
def Call.regs (ecx ebx : Word) : Call → SyscallRegs
  | .write buf len => ⟨len,buf,SYS_WRITE⟩
  | .exit => ⟨ecx,ebx,SYS_EXIT⟩
  | .yield => ⟨ecx,ebx,SYS_YIELD⟩
  | .spawn name => ⟨ecx,name,SYS_SPAWN⟩
  | .read buf max => ⟨max,buf,SYS_READ⟩
  | .wait pid => ⟨ecx,pid,SYS_WAIT⟩
  | .getprocs buf max => ⟨max,buf,SYS_GETPROCS⟩
  | .listfiles buf max => ⟨max,buf,SYS_LISTFILES⟩
  | .clear => ⟨ecx,ebx,SYS_CLEAR⟩

/-- A call, with the memory of the program when it calls. -/
structure Query where
  mem : Memory
  call : Call

structure Reply where
  eax : Word
  mem : Memory

abbrev Code := Tree Query Reply

def syscall (call : Call) (m : Memory) : Code Reply := .ask ⟨m,call⟩ .ret

def write (buf len : Word) : Memory → Code Reply := syscall (.write buf len)
def spawn (name : Word) : Memory → Code Reply := syscall (.spawn name)
def read (buf max : Word) : Memory → Code Reply := syscall (.read buf max)
def wait (pid : Word) : Memory → Code Reply := syscall (.wait pid)
def getprocs (buf max : Word) : Memory → Code Reply := syscall (.getprocs buf max)
def listfiles (buf max : Word) : Memory → Code Reply := syscall (.listfiles buf max)
def clear : Memory → Code Reply := syscall .clear

/-- `exit` goes on in `while (1) {}`. -/
def exit {α : Type} (m : Memory) : Code α := syscall .exit m >>= fun _ => .spin

/-! ### Texts in memory -/

/-- The bytes of a string literal, without its end. -/
def chars (s : String) : List Byte := Mkfs.ascii s.toList

def bytes (m : Memory) (a : Word) (n : Nat) : List Byte := (List.range n).map (fun i => m (a+BitVec.ofNat 32 i))

/-- Memory after bytes have been stored from an address on. -/
def put (m : Memory) (a : Word) (text : List Byte) : Memory := fun b => (text[(b-a).toNat]?).getD (m b)

@[simp] theorem length_bytes (m : Memory) (a : Word) (n : Nat) : (bytes m a n).length = n := by simp [bytes]

theorem bytes_holds {m : Memory} {a : Word} {text : List Byte} (holds : Holds m a text) : bytes m a text.length = text := by
  refine List.ext_getElem (by simp) (fun i _ below => ?_)
  simp only [bytes,List.getElem_map,List.getElem_range]
  exact holds i _ (List.getElem?_eq_getElem below)

theorem holds_bytes (m : Memory) (a : Word) (n : Nat) : Holds m a (bytes m a n) := by
  intro i b here
  obtain ⟨below,rfl⟩ := List.getElem?_eq_some_iff.mp here
  simp only [bytes,List.getElem_map,List.getElem_range]

theorem holds_congr {m m' : Memory} {a : Word} {text : List Byte} (holds : Holds m a text)
    (same : ∀ i < text.length, m' (a+BitVec.ofNat 32 i) = m (a+BitVec.ofNat 32 i)) : Holds m' a text := by
  intro i b here
  rw [same i (List.getElem?_eq_some_iff.mp here).1]
  exact holds i b here

theorem put_inside (m : Memory) (a : Word) {text : List Byte} (small : text.length ≤ 2^32) : Holds (put m a text) a text := by
  intro i b here
  have below := (List.getElem?_eq_some_iff.mp here).1
  have offset : (a+BitVec.ofNat 32 i-a).toNat = i := by bv_omega
  rw [put,offset,here,Option.getD_some]

theorem put_outside (m : Memory) {a b : Word} {text : List Byte} (outside : ∀ j < text.length, b ≠ a+BitVec.ofNat 32 j) :
    put m a text b = m b := by
  have beyond : text.length ≤ (b-a).toNat := by
    by_contra inside
    refine outside (b-a).toNat (by omega) ?_
    bv_omega
  rw [put,List.getElem?_eq_none beyond,Option.getD_none]

/-- A text with its end is read back up to its end. -/
theorem strlen_text {m : Memory} {a : Word} {text : List Byte} (holds : Holds m a (text++[0#8])) (nonzero : Text text)
    (small : text.length < 2^32) : (strlen m a).toNat = text.length := by
  obtain ⟨first,last⟩ := holds_append.mp holds
  refine strlen_eq small (by simpa using last 0 0#8 rfl) (fun j below => ?_)
  rw [first j _ (List.getElem?_eq_getElem below)]
  exact nonzero _ (List.getElem_mem below)

theorem c_string_text {m : Memory} {a : Word} {text : List Byte} (holds : Holds m a (text++[0#8])) (nonzero : Text text)
    (small : text.length < 2^32) : c_string m a = text := by
  rw [c_string,strlen_text holds nonzero small]
  exact bytes_holds (holds_append.mp holds).1

/-! ### Comparing -/

def streq_from (m : Memory) : Nat → Word → Word → Bool
  | 0, a, b => m a = m b
  | left+1, a, b => if m a ≠ 0#8 ∧ m a = m b then streq_from m left (a+1#32) (b+1#32) else m a = m b

/-- `streq`, whose loop goes round the address space at most once. -/
def streq (m : Memory) (a b : Word) : Bool := streq_from m (2^32) a b

theorem holds_cons {m : Memory} {a : Word} {c : Byte} {text : List Byte} (holds : Holds m a (c :: text)) :
    m a = c ∧ Holds m (a+1#32) text := by
  rw [← List.singleton_append] at holds
  obtain ⟨first,rest⟩ := holds_append.mp holds
  exact ⟨by simpa using first 0 c rfl,rest⟩

theorem streq_from_texts {m : Memory} {a b : Word} {s t : List Byte} (holdsS : Holds m a (s++[0#8]))
    (holdsT : Holds m b (t++[0#8])) (textS : Text s) (textT : Text t) {left : Nat} (enough : s.length ≤ left) :
    streq_from m left a b = decide (s = t) := by
  induction s generalizing a b t left with
  | nil =>
    have here : m a = 0#8 := (holds_cons holdsS).1
    have stops : streq_from m left a b = decide (m a = m b) := by
      cases left with
      | zero => rfl
      | succ left => rw [streq_from,if_neg (fun goesOn => goesOn.1 here)]
    rw [stops,here]
    cases t with
    | nil => rw [(holds_cons holdsT).1,decide_eq_decide]; simp
    | cons d rest =>
      have nonzero : d ≠ 0#8 := textT d List.mem_cons_self
      rw [(holds_cons holdsT).1,decide_eq_decide]
      simp [nonzero.symm]
  | cons c s ih =>
    obtain ⟨here,later⟩ := holds_cons holdsS
    have nonzero : c ≠ 0#8 := textS c List.mem_cons_self
    obtain ⟨left,rfl⟩ := Nat.exists_eq_add_of_le' (show 1 ≤ left by rw [List.length_cons] at enough; omega)
    rw [streq_from,here]
    cases t with
    | nil =>
      rw [(holds_cons holdsT).1,if_neg (fun goesOn => goesOn.1 goesOn.2),decide_eq_decide]
      simp [nonzero]
    | cons d t =>
      obtain ⟨there,laterT⟩ := holds_cons holdsT
      rw [there]
      by_cases same : c = d
      · subst same
        rw [if_pos ⟨nonzero,rfl⟩,ih later laterT (fun x member => textS x (List.mem_cons_of_mem c member))
          (fun x member => textT x (List.mem_cons_of_mem c member)) (by rw [List.length_cons] at enough; omega),
          decide_eq_decide]
        simp
      · rw [if_neg (fun goesOn => same goesOn.2),decide_eq_decide]
        simp [same]

/-- `streq` compares texts. -/
theorem streq_texts {m : Memory} {a b : Word} {s t : List Byte} (holdsS : Holds m a (s++[0#8]))
    (holdsT : Holds m b (t++[0#8])) (textS : Text s) (textT : Text t) (small : s.length ≤ 2^32) :
    streq m a b = decide (s = t) := streq_from_texts holdsS holdsT textS textT small

/-! ### The contract -/

/-- A `struct proc_info` as a program reads it. -/
structure Row where
  pid : Word
  state : Word
  name : List Byte

/-- The entry of the table: the pid is not negative as an `int`, and the name has its end
    in its field. -/
structure Row.Entry (p : Row) (entry : List Byte) : Prop where
  nonneg : 0 ≤ p.pid.toInt
  text : Text p.name
  fields : ∃ rest, entry = little p.pid ++ little p.state ++ (p.name++[0#8]++rest)
  size : entry.length = sizeof_proc_info

/-- The entry of a table. -/
def row (m : Memory) (buf : Word) (i : Nat) : Row :=
  let p := buf+BitVec.ofNat 32 (sizeof_proc_info*i)
  ⟨read32 m p,read32 m (p+4#32),c_string m (p+8#32)⟩

/-- An entry is read as it was written. -/
theorem row_entry {m : Memory} {buf : Word} {i : Nat} {p : Row} {entry : List Byte} (isEntry : p.Entry entry)
    (here : Holds m (buf+BitVec.ofNat 32 (sizeof_proc_info*i)) entry) : row m buf i = p := by
  obtain ⟨_,text,⟨rest,rfl⟩,size⟩ := isEntry
  simp only [List.length_append,little_length,List.length_singleton] at size
  obtain ⟨numbers,name⟩ := holds_append.mp here
  obtain ⟨pid,state⟩ := holds_append.mp numbers
  have named := c_string_text (holds_append.mp name).1 text
    (by simp only [sizeof_proc_info,Process.PROC_NAME_MAX] at size; omega)
  rw [row]
  simp only [List.length_append,little_length] at named state
  exact congr (congr (congrArg Row.mk (holds_read32 pid)) (holds_read32 state)) named

theorem flatten_length {entries : List (List Byte)} {size : Nat} (sizes : ∀ entry ∈ entries, entry.length = size) :
    entries.flatten.length = size*entries.length := by
  induction entries with
  | nil => rfl
  | cons entry rest ih =>
    rw [List.flatten_cons,List.length_append,sizes entry List.mem_cons_self,
      ih (fun e later => sizes e (List.mem_cons_of_mem _ later)),List.length_cons,Nat.mul_succ,Nat.add_comm]

/-- Where an entry of the table is. -/
theorem table_entry {m : Memory} {buf : Word} {entries : List (List Byte)}
    (sizes : ∀ entry ∈ entries, entry.length = sizeof_proc_info) (here : Holds m buf entries.flatten) {i : Nat}
    {entry : List Byte} (found : entries[i]? = some entry) :
    Holds m (buf+BitVec.ofNat 32 (sizeof_proc_info*i)) entry := by
  rw [← List.flatMap_id] at here
  have below := (List.getElem?_eq_some_iff.mp found).1
  have place := holds_flatMap here found
  rw [List.flatMap_id,flatten_length (fun e early => sizes e (List.mem_of_mem_take early)),List.length_take,
    Nat.min_eq_left (by omega)] at place
  exact place

/-- What a program can rely on when a call returns. Nothing is said of `listfiles` into a
    buffer of no bytes, which stores beyond its end. -/
def Keeps (q : Query) (r : Reply) : Prop :=
  match q.call with
  | .write _ len => r = ⟨len,q.mem⟩
  | .exit => False
  | .yield => r = ⟨SYS_YIELD,q.mem⟩
  | .spawn _ => r.mem = q.mem
  | .read buf max => ∃ line, Text line ∧ line.length ≤ max.toNat ∧ r = ⟨BitVec.ofNat 32 line.length,put q.mem buf line⟩
  | .wait _ => r = ⟨0#32,q.mem⟩
  | .getprocs buf max => ∃ entries : List (List Byte), entries.length ≤ max.toInt.toNat ∧
      (∀ entry ∈ entries, ∃ p : Row, p.Entry entry) ∧ r = ⟨BitVec.ofNat 32 entries.length,put q.mem buf entries.flatten⟩
  | .listfiles buf max => max ≠ 0#32 → ∃ text, Text text ∧ text.length < max.toNat ∧ r.eax = BitVec.ofNat 32 text.length ∧
      (r.mem = put q.mem buf (text++[0#8]) ∨ (text = [] ∧ r.mem = q.mem))
  | .clear => r = ⟨0#32,q.mem⟩

/-! ### From outside -/

inductive Asked
  | print (text : List Byte)
  | exit
  | yield
  | spawn (name : List Byte)
  | line (max : Word)
  | wait (pid : Word)
  | procs (max : Word)
  | files (max : Word)
  | clear
deriving DecidableEq

/-- What can be seen of an answer. -/
structure Told where
  number : Word
  text : List Byte
  procs : List Row

def shown (q : Query) : Asked :=
  match q.call with
  | .write buf len => .print (bytes q.mem buf len.toNat)
  | .exit => .exit
  | .yield => .yield
  | .spawn name => .spawn (c_string q.mem name)
  | .read _ max => .line max
  | .wait pid => .wait pid
  | .getprocs _ max => .procs max
  | .listfiles _ max => .files max
  | .clear => .clear

def told (q : Query) (r : Reply) : Told :=
  match q.call with
  | .read buf _ => ⟨r.eax,bytes r.mem buf r.eax.toNat,[]⟩
  | .getprocs buf _ => ⟨r.eax,[],(List.range r.eax.toNat).map (row r.mem buf)⟩
  | .listfiles buf _ => ⟨r.eax,bytes r.mem buf r.eax.toNat,[]⟩
  | _ => ⟨r.eax,[],[]⟩

/-- Calls of `write` with string literals, one after the other. -/
def writes (literal : String → Word) : List (String × Word) → Memory → Code Memory
  | [], m => .ret m
  | (s,len) :: rest, m => do
    let r ← write (literal s) len m
    writes literal rest r.mem

def prints : List (List Byte) → Tree Asked Told Unit
  | [] => .ret ()
  | text :: rest => .ask (.print text) (fun _ => prints rest)

theorem prints_cons (text : List Byte) (rest : List (List Byte)) :
    prints (text :: rest) = prints [text] >>= fun _ => prints rest := rfl

theorem prints_append (first rest : List (List Byte)) :
    prints (first++rest) = prints first >>= fun _ => prints rest := by
  induction first with
  | nil => rfl
  | cons text first ih =>
    rw [List.cons_append,prints_cons,ih]
    rfl

/-! ### The memory of a program -/

/-- Where a program has its string literals: not in its variables, which are the bytes
    that it owns. -/
structure Layout (literals : List String) (own : Word → Prop) where
  literal : String → Word
  apart : ∀ s ∈ literals, ∀ i ≤ s.length, ¬ own (literal s+BitVec.ofNat 32 i)

section
variable {literals : List String} {own : Word → Prop} (l : Layout literals own)

/-- The program is loaded with its literals. -/
def Layout.Placed (m : Memory) : Prop := ∀ s ∈ literals, Holds m (l.literal s) (chars s++[0#8])

/-- The bytes that the program may hand to the kernel for reading. -/
def Layout.Readable (a : Word) : Prop := own a ∨ ∃ s ∈ literals, ∃ i ≤ s.length, a = l.literal s+BitVec.ofNat 32 i

/-- Nothing but variables has changed. -/
def Steady (own : Word → Prop) (m₀ m : Memory) : Prop := ∀ a, ¬ own a → m a = m₀ a

/-- The kernel is handed nothing but variables to write to, and variables and literals
    to read from. -/
def Layout.Proper (q : Query) : Prop :=
  match q.call with
  | .write buf len => ∀ j < len.toNat, l.Readable (buf+BitVec.ofNat 32 j)
  | .spawn name => ∃ n < 2^32, q.mem (name+BitVec.ofNat 32 n) = 0#8 ∧ ∀ j ≤ n, own (name+BitVec.ofNat 32 j)
  | .read buf max => ∀ j < max.toNat, own (buf+BitVec.ofNat 32 j)
  | .getprocs buf max => ∀ j : Nat, (j : Int) < sizeof_proc_info*max.toInt → own (buf+BitVec.ofNat 32 j)
  | .listfiles buf max => 0 < max.toNat ∧ ∀ j < max.toNat, own (buf+BitVec.ofNat 32 j)
  | _ => True

/-- A program from outside, which has started in the memory `m₀`. -/
def Layout.outside (m₀ : Memory) : View Query Reply Asked Told where
  keeps := Keeps
  fine := fun q => Steady own m₀ q.mem ∧ l.Proper q
  shown := shown
  told := told

variable {l} {m₀ m : Memory}

theorem steady_refl : Steady own m₀ m₀ := fun _ _ => rfl

theorem steady_write8 (steady : Steady own m₀ m) {a : Word} (inside : own a) (b : Byte) : Steady own m₀ (write8 m a b) := by
  intro c other
  have apart : c ≠ a := fun same => other (same ▸ inside)
  rw [write8,if_neg apart,steady c other]

theorem steady_put (steady : Steady own m₀ m) {a : Word} {text : List Byte}
    (inside : ∀ j < text.length, own (a+BitVec.ofNat 32 j)) : Steady own m₀ (put m a text) := by
  intro c other
  have apart : ∀ j < text.length, c ≠ a+BitVec.ofNat 32 j := fun j below same => other (by rw [same]; exact inside j below)
  rw [put_outside m apart,steady c other]

@[simp] theorem length_chars (s : String) : (chars s).length = s.length := by
  rw [chars,Mkfs.ascii,List.length_map,String.length_toList]

theorem placed_steady (placed : l.Placed m₀) (steady : Steady own m₀ m) {s : String} (member : s ∈ literals) :
    Holds m (l.literal s) (chars s++[0#8]) := by
  refine holds_congr (placed s member) (fun i below => steady _ (l.apart s member i ?_))
  simp only [List.length_append,length_chars,List.length_singleton] at below
  omega

theorem follows_call (call : Call) (steady : Steady own m₀ m) (proper : l.Proper ⟨m,call⟩) :
    Follows (l.outside m₀) (fun r t => Keeps ⟨m,call⟩ r ∧ t = told ⟨m,call⟩ r) (syscall call m)
      (.ask (shown ⟨m,call⟩) .ret) :=
  .ask (v := l.outside m₀) ⟨steady,proper⟩ (fun _ kept => .ret ⟨kept,rfl⟩)

/-- A line that is read is in the buffer, and `eax` is its length. -/
theorem follows_read (buf max : Word) (steady : Steady own m₀ m) (inside : ∀ j < max.toNat, own (buf+BitVec.ofNat 32 j))
    (small : max.toNat < 2^31) :
    Follows (l.outside m₀)
      (fun (r : Reply) (t : Told) => ∃ line, Text line ∧ line.length ≤ max.toNat ∧
        r = ⟨BitVec.ofNat 32 line.length,put m buf line⟩ ∧ t.text = line ∧ r.eax.toNat = line.length ∧
        r.eax.toInt = (line.length : Int) ∧ Holds r.mem buf line ∧ Steady own m₀ r.mem)
      (syscall (.read buf max) m) (.ask (shown ⟨m,.read buf max⟩) .ret) := by
  refine .ask (v := l.outside m₀) ⟨steady,inside⟩ (fun r kept => .ret ?_)
  obtain ⟨line,text,long,rfl⟩ : ∃ line, Text line ∧ line.length ≤ max.toNat ∧
    r = ⟨BitVec.ofNat 32 line.length,put m buf line⟩ := kept
  have number : (BitVec.ofNat 32 line.length).toNat = line.length := by
    rw [BitVec.toNat_ofNat]
    omega
  have signed : (BitVec.ofNat 32 line.length).toInt = line.length := by
    rw [BitVec.toInt_eq_toNat_of_lt (by omega),number]
  have typed := put_inside m buf (show line.length ≤ 2^32 by omega)
  refine ⟨line,text,long,rfl,?_,number,signed,typed,steady_put steady (fun j below => inside j (by omega))⟩
  change bytes (put m buf line) buf (BitVec.ofNat 32 line.length).toNat = line
  rw [number,bytes_holds typed]

theorem follows_text (steady : Steady own m₀ m) {buf n : Word} {text : List Byte} (here : Holds m buf text)
    (length : n.toNat = text.length) (readable : ∀ j < text.length, l.Readable (buf+BitVec.ofNat 32 j)) :
    Follows (l.outside m₀) (fun r _ => r.mem = m) (write buf n m) (prints [text]) := by
  have printed : shown ⟨m,.write buf n⟩ = .print text := by
    change Asked.print (bytes m buf n.toNat) = _
    rw [length,bytes_holds here]
  rw [prints,← printed]
  refine .ask (v := l.outside m₀) ⟨steady,fun j below => readable j (length ▸ below)⟩ (fun r kept => .ret ?_)
  rw [show r = ⟨n,m⟩ from kept]

/-- A literal is printed up to the length that is given. -/
theorem follows_cut (placed : l.Placed m₀) (steady : Steady own m₀ m) {s : String} (member : s ∈ literals) {n : Word}
    (length : n.toNat ≤ s.length) :
    Follows (l.outside m₀) (fun r _ => r.mem = m) (write (l.literal s) n m) (prints [(chars s).take n.toNat]) := by
  have whole := (holds_append.mp (placed_steady placed steady member)).1
  rw [← List.take_append_drop n.toNat (chars s)] at whole
  have cut : ((chars s).take n.toNat).length = n.toNat := by rw [List.length_take,length_chars,Nat.min_eq_left length]
  refine follows_text steady (holds_append.mp whole).1 cut.symm (fun j below => .inr ⟨s,member,j,?_,rfl⟩)
  omega

theorem follows_literal (placed : l.Placed m₀) (steady : Steady own m₀ m) {s : String} (member : s ∈ literals) {n : Word}
    (length : n.toNat = s.length) :
    Follows (l.outside m₀) (fun r _ => r.mem = m) (write (l.literal s) n m) (prints [chars s]) := by
  have whole := follows_cut placed steady member (le_of_eq length)
  rwa [length,← length_chars,List.take_length] at whole

theorem follows_writes (placed : l.Placed m₀) (steady : Steady own m₀ m) {texts : List (String × Word)}
    (right : ∀ t ∈ texts, t.1 ∈ literals ∧ t.2.toNat = t.1.length) :
    Follows (l.outside m₀) (fun m' _ => m' = m) (writes l.literal texts m) (prints (texts.map (fun t => chars t.1))) := by
  induction texts with
  | nil => exact .ret rfl
  | cons t rest ih =>
    obtain ⟨member,length⟩ := right t List.mem_cons_self
    rw [List.map_cons,prints_cons]
    refine follows_bind (follows_literal placed steady member length) (fun r _ same => ?_)
    rw [same]
    exact ih (fun t later => right t (List.mem_cons_of_mem _ later))

end

/-! ### A simple kernel -/

/-- An entry for the row, with zeros after the name. -/
def Row.entry (p : Row) : List Byte :=
  little p.pid ++ little p.state ++ (p.name ++ List.replicate (PROC_NAME_MAX-p.name.length) 0#8)

/-- A kernel without files and programs. Whoever asks is given the same line and the same
    processes. -/
def answer (line : List Byte) (rows : List Row) (q : Query) : Option Reply :=
  match q.call with
  | .write _ len => some ⟨len,q.mem⟩
  | .exit => none
  | .yield => some ⟨SYS_YIELD,q.mem⟩
  | .spawn _ => some ⟨0xFFFFFFFF#32,q.mem⟩
  | .read buf max => some ⟨BitVec.ofNat 32 (line.take max.toNat).length,put q.mem buf (line.take max.toNat)⟩
  | .wait _ => some ⟨0#32,q.mem⟩
  | .getprocs buf max =>
    some ⟨BitVec.ofNat 32 (rows.take max.toInt.toNat).length,put q.mem buf ((rows.take max.toInt.toNat).flatMap Row.entry)⟩
  | .listfiles _ _ => some ⟨0#32,q.mem⟩
  | .clear => some ⟨0#32,q.mem⟩

/-- What is seen of its answers. -/
def answerTold (line : List Byte) (rows : List Row) : Asked → Option Told
  | .print text => some ⟨BitVec.ofNat 32 text.length,[],[]⟩
  | .exit => none
  | .yield => some ⟨SYS_YIELD,[],[]⟩
  | .spawn _ => some ⟨0xFFFFFFFF#32,[],[]⟩
  | .line max => some ⟨BitVec.ofNat 32 (line.take max.toNat).length,line.take max.toNat,[]⟩
  | .wait _ => some ⟨0#32,[],[]⟩
  | .procs max => some ⟨BitVec.ofNat 32 (rows.take max.toInt.toNat).length,[],rows.take max.toInt.toNat⟩
  | .files _ => some ⟨0#32,[],[]⟩
  | .clear => some ⟨0#32,[],[]⟩

section
variable {line : List Byte} {rows : List Row} (wellFormed : ∀ p ∈ rows, p.Entry p.entry)
include wellFormed

/-- It keeps the contract. -/
theorem answer_keeps (text : Text line) {q : Query} {r : Reply} (answers : answer line rows q = some r) : Keeps q r := by
  obtain ⟨m,call⟩ := q
  cases call with
  | exit => cases answers
  | read buf max =>
    cases answers
    exact ⟨line.take max.toNat,fun c member => text c (List.mem_of_mem_take member),List.length_take_le _ _,rfl⟩
  | getprocs buf max =>
    cases answers
    refine ⟨(rows.take max.toInt.toNat).map Row.entry,?_,?_,?_⟩
    · rw [List.length_map]
      exact List.length_take_le _ _
    · intro entry member
      obtain ⟨p,inside,rfl⟩ := List.mem_map.mp member
      exact ⟨p,wellFormed p (List.mem_of_mem_take inside)⟩
    · rw [List.length_map,← List.flatMap_def]
  | listfiles buf max =>
    cases answers
    have positive (nonzero : max ≠ 0#32) : 0 < max.toNat :=
      Nat.pos_of_ne_zero (fun zero => nonzero (BitVec.eq_of_toNat_eq zero))
    exact fun nonzero => ⟨[],by simp [Text],positive nonzero,rfl,.inr ⟨rfl,rfl⟩⟩
  | _ =>
    cases answers
    exact rfl

/-- A table is read back. -/
theorem rows_read (few : sizeof_proc_info*rows.length ≤ 2^32) (m : Memory) (buf : Word) :
    (List.range rows.length).map (row (put m buf (rows.flatMap Row.entry)) buf) = rows := by
  have sizes : ∀ entry ∈ rows.map Row.entry, entry.length = sizeof_proc_info := by
    intro entry member
    obtain ⟨p,inside,rfl⟩ := List.mem_map.mp member
    exact (wellFormed p inside).size
  rw [List.flatMap_def]
  have held : Holds (put m buf (rows.map Row.entry).flatten) buf (rows.map Row.entry).flatten :=
    put_inside m buf (by rwa [flatten_length sizes,List.length_map])
  refine List.ext_getElem (by simp) (fun i _ below => ?_)
  rw [List.getElem_map,List.getElem_range]
  refine row_entry (wellFormed _ (List.getElem_mem below)) (table_entry sizes held ?_)
  rw [List.getElem?_map,List.getElem?_eq_getElem below,Option.map_some]

theorem answer_told (few : sizeof_proc_info*rows.length ≤ 2^32) (q : Query) :
    answerTold line rows (shown q) = (answer line rows q).map (told q) := by
  obtain ⟨m,call⟩ := q
  cases call with
  | write buf len =>
    change some (Told.mk (BitVec.ofNat 32 (bytes m buf len.toNat).length) [] []) = some ⟨len,[],[]⟩
    rw [length_bytes,BitVec.ofNat_toNat,BitVec.setWidth_eq]
  | read buf max =>
    have short : (line.take max.toNat).length ≤ max.toNat := List.length_take_le _ _
    have number : (BitVec.ofNat 32 (line.take max.toNat).length).toNat = (line.take max.toNat).length := by
      rw [BitVec.toNat_ofNat]
      omega
    change _ = some (Told.mk _ (bytes (put m buf (line.take max.toNat)) buf
      (BitVec.ofNat 32 (line.take max.toNat).length).toNat) [])
    rw [number,bytes_holds (put_inside m buf (by omega))]
    rfl
  | getprocs buf max =>
    have short : (rows.take max.toInt.toNat).length ≤ rows.length := List.length_take_le' _ _
    have width : sizeof_proc_info = 40 := rfl
    rw [width] at few
    have number : (BitVec.ofNat 32 (rows.take max.toInt.toNat).length).toNat = (rows.take max.toInt.toNat).length := by
      rw [BitVec.toNat_ofNat]
      omega
    change _ = some (Told.mk _ [] ((List.range (BitVec.ofNat 32 (rows.take max.toInt.toNat).length).toNat).map
      (row (put m buf ((rows.take max.toInt.toNat).flatMap Row.entry)) buf)))
    rw [number,rows_read (fun p member => wellFormed p (List.mem_of_mem_take member)) (by rw [width]; omega)]
    rfl
  | _ => rfl

end

/-! ### Literals side by side -/

/-- 64 bytes for each literal. -/
def packed (literals : List String) : List Byte := literals.flatMap (fun s => chars s++List.replicate (64-s.length) 0#8)

def place (base : Word) (literals : List String) (s : String) : Word := base+BitVec.ofNat 32 (64*literals.idxOf s)

theorem packed_length {literals : List String} (short : ∀ s ∈ literals, s.length < 64) :
    (packed literals).length = 64*literals.length := by
  induction literals with
  | nil => rfl
  | cons s rest ih =>
    have first := short s List.mem_cons_self
    have later := ih (fun s member => short s (List.mem_cons_of_mem _ member))
    rw [packed] at later ⊢
    rw [List.flatMap_cons,List.length_append,later,List.length_append,length_chars,List.length_replicate,List.length_cons]
    omega

theorem packed_holds {literals : List String} (short : ∀ s ∈ literals, s.length < 64) (few : 64*literals.length ≤ 2^32)
    (base : Word) {s : String} (member : s ∈ literals) :
    Holds (loaded base (packed literals)) (place base literals s) (chars s++[0#8]) := by
  have whole : Holds (loaded base (packed literals)) base (packed literals) := loaded_holds (by rwa [packed_length short])
  have found : literals[literals.idxOf s]? = some s := by
    rw [List.getElem?_eq_getElem (List.idxOf_lt_length_of_mem member),List.getElem_idxOf]
  have block := holds_flatMap whole found
  have before : (packed (literals.take (literals.idxOf s))).length = _ :=
    packed_length (fun t early => short t (List.mem_of_mem_take early))
  rw [List.length_take,Nat.min_eq_left (List.idxOf_le_length),packed] at before
  rw [before] at block
  have room : List.replicate (64-s.length) 0#8 = [0#8]++List.replicate (63-s.length) 0#8 := by
    have length := short s member
    rw [show 64-s.length = 63-s.length+1 by omega,List.replicate_succ]
    rfl
  rw [room,← List.append_assoc] at block
  exact (holds_append.mp block).1

section
variable {literals : List String} {own : Word → Prop} (short : ∀ s ∈ literals, s.length < 64) (few : literals.length ≤ 64)
  (above : ∀ a, own a → 0x2000 ≤ a.toNat)
include short few above

theorem packed_apart : ∀ s ∈ literals, ∀ i ≤ s.length, ¬ own (place 0x1000#32 literals s+BitVec.ofNat 32 i) := by
  intro s member i inside isOwn
  have length := short s member
  have index := List.idxOf_lt_length_of_mem member
  have high := above _ isOwn
  rw [place] at high
  bv_omega

/-- The literals from 0x1000 on, and the variables above them. -/
def packedLayout : Layout literals own := ⟨place 0x1000#32 literals,packed_apart short few above⟩

theorem packed_placed : (packedLayout short few above).Placed (loaded 0x1000#32 (packed literals)) :=
  fun _ member => packed_holds short (by omega) 0x1000#32 member

end

end SoKernel.Userland
