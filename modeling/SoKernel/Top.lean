import SoKernel.Contract
import SoKernel.Lists

/-!
The process viewer. `programs/top.c` clears the screen, prints a table of the processes
and asks for a line, until that starts with a `q`. The rule under the heading of the table
has one byte more than its `write` says, so that its line is not ended: the first process
stands behind the rule, and not under it.
-/
namespace SoKernel.Top
open SoKernel.Words SoKernel.Lists SoKernel.Fs SoKernel.Syscalls SoKernel.Ulib SoKernel.Dialogue SoKernel.Userland
set_option linter.unusedSimpArgs false

/-! ### Numerals -/

/-- The decimal numeral of a number. -/
def decimal (n : Nat) : List Byte := if n = 0 then [0x30#8] else (backwards n).reverse

/-- A number has one numeral only. -/
theorem numeral_decimal {text : List Byte} {n : Nat} (numeral : Numeral text n) : text = decimal n := by
  by_cases zero : text.head? = some 0x30#8
  · have single := numeral.leading zero
    have value : n = 0 := by
      have number := numeral.value
      rw [single] at number
      exact (Int.natCast_inj.mp number).symm
    rw [single,value]
    rfl
  -- The digits, the last one first, end with one that is not zero.
  generalize turned : text.reverse.map (fun c => c.toNat-0x30) = ds
  have small : ∀ d ∈ ds, d < 10 := by
    intro d member
    rw [← turned,List.mem_map] at member
    obtain ⟨c,inside,rfl⟩ := member
    have bounds := numeral.digits c (List.mem_reverse.mp inside)
    simp only [Digit] at bounds
    omega
  have back : ds.map digit = text.reverse := by
    rw [← turned,List.map_map]
    nth_rewrite 2 [← List.map_id text.reverse]
    refine List.map_congr_left (fun c inside => BitVec.eq_of_toNat_eq ?_)
    have bounds := numeral.digits c (List.mem_reverse.mp inside)
    simp only [Digit] at bounds
    rw [Function.comp_apply,digit_toNat (by omega),id]
    omega
  have last : ∀ nonempty : ds ≠ [], ds.getLast nonempty ≠ 0 := by
    intro nonempty isZero
    refine zero ?_
    have found := List.getLast?_eq_some_getLast nonempty
    rw [isZero,← turned,List.getLast?_map,List.getLast?_reverse] at found
    obtain ⟨c,first,value⟩ := Option.map_eq_some_iff.mp found
    have bounds := numeral.digits c (List.mem_of_head? first)
    simp only [Digit] at bounds
    rw [first,Option.some_inj]
    refine BitVec.eq_of_toNat_eq ?_
    rw [BitVec.toNat_ofNat]
    omega
  have value : Nat.ofDigits 10 ds = n := by
    rw [← numeric_reverse small,back,List.reverse_reverse]
    exact Int.natCast_inj.mp numeral.value
  have digits : Nat.digits 10 n = ds := by rw [← value,Nat.digits_ofDigits 10 (by decide) ds small last]
  have positive : n ≠ 0 := by
    rintro rfl
    rw [Nat.digits_zero] at digits
    rw [← digits,List.map_nil] at back
    exact numeral.nonempty (List.reverse_eq_nil_iff.mp back.symm)
  rw [decimal,if_neg positive,backwards,digits,back,List.reverse_reverse]

/-! ### Screens -/

def heading : List (String × Word) :=
  [("=== Process Viewer (top) ===\n\n",30#32),("PID   STATE    NAME\n",20#32)]

def rule : String := "----  -------  ----------------\n"

def footer : String := "\nEnter to refresh, 'q'+Enter to quit.\n"

def state_name (s : Word) : String := if s = 1#32 then "READY  " else if s = 2#32 then "RUNNING" else "DEAD   "

/-- The pid in six places, the state, and the name. -/
def line (p : Row) : List (List Byte) :=
  decimal p.pid.toNat :: List.replicate (6-(decimal p.pid.toNat).length) (chars " ") ++
    [chars (state_name p.state),chars "  ",p.name,chars "\n"]

/-- What is on display, with this text for the rule. -/
def display (rule : List Byte) : Tree Asked Told (List Row) := do
  let _ ← .ask .clear .ret
  prints (heading.map (fun t => chars t.1))
  prints [rule]
  let table ← .ask (.procs 16#32) .ret
  prints (table.procs.flatMap line)
  prints [chars footer]
  .ret table.procs

/-- A line that starts with a `q` ends the program. -/
def input : Tree Asked Told Unit := do
  let input ← .ask (.line 15#32) .ret
  if input.text.head? = some 113#8 then .ask .exit (fun _ => .spin) else .ret ()

def screen (rule : List Byte) : Tree Asked Told Unit := do
  let _ ← display rule
  input

/-- The rule as it is printed. -/
def cut : List Byte := (chars rule).take 31

/-! ### The program -/

structure Buffers where
  procs : Word
  cmd : Word
  numbuf : Word
  apart : ∀ i < 640, ∀ j < 12, procs+BitVec.ofNat 32 i ≠ numbuf+BitVec.ofNat 32 j

def Buffers.Own (b : Buffers) (a : Word) : Prop :=
  (∃ j < 640, a = b.procs+BitVec.ofNat 32 j) ∨ (∃ j < 16, a = b.cmd+BitVec.ofNat 32 j) ∨
    ∃ j < 12, a = b.numbuf+BitVec.ofNat 32 j

def literals : List String :=
  heading.map Prod.fst ++ [rule,footer," ","READY  ","RUNNING","DEAD   ","  ","\n"]

/-- `while (pad-- > 0) write(" ", 1)`. -/
def pads (literal : String → Word) : Nat → Memory → Code Memory
  | 0, m => .ret m
  | pad+1, m => do
    let r ← write (literal " ") 1#32 m
    pads literal pad r.mem

section
variable (b : Buffers) (l : Layout literals b.Own)

/-- One round of the loop over the processes. -/
def print_row (i : Nat) (m : Memory) : Code Memory := do
  let p := b.procs+BitVec.ofNat 32 (sizeof_proc_info*i)
  let m := (itoa (read32 m p) b.numbuf ⟨m,[]⟩).mem
  let r ← write b.numbuf (ustrlen m b.numbuf) m
  let m ← pads l.literal (6-(ustrlen r.mem b.numbuf).toInt).toNat r.mem
  let r ← write (l.literal (state_name (read32 m (p+4#32)))) 7#32 m
  let r ← write (l.literal "  ") 2#32 r.mem
  let r ← write (p+8#32) (ustrlen r.mem (p+8#32)) r.mem
  let r ← write (l.literal "\n") 1#32 r.mem
  return r.mem

/-- The loop over the `left` processes from `i` on. -/
def print_rows : Nat → Nat → Memory → Code Memory
  | 0, _, m => .ret m
  | left+1, i, m => do
    let m ← print_row b l i m
    print_rows left (i+1) m

/-- One round of the loop of `main`. -/
def refresh (m : Memory) : Code Memory := do
  let r ← clear m
  let m ← writes l.literal heading r.mem
  let r ← write (l.literal rule) 31#32 m
  let count ← getprocs b.procs 16#32 r.mem
  let m ← print_rows b l count.eax.toInt.toNat 0 count.mem
  let r ← write (l.literal footer) 38#32 m
  let len ← read b.cmd 15#32 r.mem
  if 0 < len.eax.toInt then
    let m := write8 len.mem (b.cmd+len.eax) 0#8
    if m (b.cmd+0#32) = 113#8 then exit m else return m
  else return len.mem

def main (n : Nat) (m : Memory) : Code Memory := Tree.rounds (refresh b l) n m

end

/-! ### The table -/

section
variable {b : Buffers} {l : Layout literals b.Own} {m₀ m : Memory}

theorem procs_own {j : Nat} (inside : j < 640) : b.Own (b.procs+BitVec.ofNat 32 j) := .inl ⟨j,inside,rfl⟩

theorem cmd_own {j : Nat} (inside : j < 16) : b.Own (b.cmd+BitVec.ofNat 32 j) := .inr (.inl ⟨j,inside,rfl⟩)

theorem numbuf_own {j : Nat} (inside : j < 12) : b.Own (b.numbuf+BitVec.ofNat 32 j) := .inr (.inr ⟨j,inside,rfl⟩)

theorem pads_follows (placed : l.Placed m₀) (steady : Steady b.Own m₀ m) (pad : Nat) :
    Follows (l.outside m₀) (fun m' _ => m' = m) (pads l.literal pad m) (prints (List.replicate pad (chars " "))) := by
  induction pad with
  | zero => exact .ret rfl
  | succ pad ih =>
    rw [List.replicate_succ,prints_cons]
    refine follows_bind (follows_literal placed steady (by decide) (by decide)) (fun r _ same => ?_)
    rw [same]
    exact ih

/-- `itoa` leaves the numeral in `numbuf` and the table as it was. -/
theorem itoa_decimal {pid : Word} (nonneg : 0 ≤ pid.toInt) (steady : Steady b.Own m₀ m) :
    Holds (itoa pid b.numbuf ⟨m,[]⟩).mem b.numbuf (decimal pid.toNat++[0#8]) ∧ (decimal pid.toNat).length < 11 ∧
      Text (decimal pid.toNat) ∧ Steady b.Own m₀ (itoa pid b.numbuf ⟨m,[]⟩).mem ∧
      ∀ j < 640, (itoa pid b.numbuf ⟨m,[]⟩).mem (b.procs+BitVec.ofNat 32 j) = m (b.procs+BitVec.ofNat 32 j) := by
  have bound := BitVec.toInt_pos_iff.mp nonneg
  obtain ⟨text,numeral,short,buffered⟩ := itoa_buffered nonneg (k := 10) (by decide) (by omega) (by decide) b.numbuf m
  have value : pid.toInt = pid.toNat := toInt_nonneg nonneg
  rw [value] at numeral
  rw [← numeral_decimal numeral]
  refine ⟨buffered.here,by omega,?_,?_,?_⟩
  · intro c member zero
    have isDigit := numeral.digits c member
    rw [zero] at isDigit
    exact absurd isDigit.1 (by decide)
  · intro a other
    rw [buffered.rest a (fun j below same => other (by rw [same]; exact numbuf_own (by omega))),steady a other]
  · exact fun j inside => buffered.rest _ (fun k below => b.apart j inside k (by omega))

theorem state_name_literal (s : Word) : state_name s ∈ literals ∧ (7#32 : Word).toNat = (state_name s).length := by
  have names : ∀ t ∈ ["READY  ","RUNNING","DEAD   "], t ∈ literals ∧ (7#32 : Word).toNat = t.length := by decide
  refine names _ ?_
  rw [state_name]
  split
  · simp
  · split <;> simp

/-- A round of the loop prints a line of the table. -/
theorem print_row_follows (placed : l.Placed m₀) (steady : Steady b.Own m₀ m) {i : Nat} (inside : i < 16) {p : Row}
    {entry : List Byte} (isEntry : p.Entry entry) (here : Holds m (b.procs+BitVec.ofNat 32 (sizeof_proc_info*i)) entry) :
    Follows (l.outside m₀)
      (fun m' _ => Steady b.Own m₀ m' ∧ ∀ j < 640, m' (b.procs+BitVec.ofNat 32 j) = m (b.procs+BitVec.ofNat 32 j))
      (print_row b l i m) (prints (line p)) := by
  have pid : read32 m (b.procs+BitVec.ofNat 32 (sizeof_proc_info*i)) = p.pid := congrArg Row.pid (row_entry isEntry here)
  obtain ⟨written,short,nonzero,after,table⟩ := itoa_decimal isEntry.nonneg steady
  rw [print_row]
  simp only [pid]
  generalize (itoa p.pid b.numbuf ⟨m,[]⟩).mem = m' at written after table ⊢
  have length : (ustrlen m' b.numbuf).toNat = (decimal p.pid.toNat).length := strlen_text written nonzero (by omega)
  have signed : (ustrlen m' b.numbuf).toInt = (decimal p.pid.toNat).length := by
    rw [BitVec.toInt_eq_toNat_of_lt (by omega),length]
  have width : sizeof_proc_info = 40 := rfl
  have kept : Holds m' (b.procs+BitVec.ofNat 32 (sizeof_proc_info*i)) entry := by
    refine holds_congr here (fun j below => ?_)
    rw [isEntry.size,width] at below
    rw [BitVec.add_assoc,← BitVec.ofNat_add]
    exact table _ (by rw [width]; omega)
  have state : read32 m' (b.procs+BitVec.ofNat 32 (sizeof_proc_info*i)+4#32) = p.state :=
    congrArg Row.state (row_entry isEntry kept)
  obtain ⟨_,text,⟨rest,fields⟩,size⟩ := isEntry
  rw [fields] at kept size
  simp only [List.length_append,little_length,List.length_singleton,width] at size
  have name := (holds_append.mp (holds_append.mp kept).2).1
  simp only [List.length_append,little_length] at name
  have nameLength : (ustrlen m' (b.procs+BitVec.ofNat 32 (sizeof_proc_info*i)+8#32)).toNat = p.name.length :=
    strlen_text name text (by omega)
  rw [line,List.cons_append,prints_cons,prints_append,prints_cons (chars (state_name p.state)),prints_cons (chars "  "),
    prints_cons p.name]
  refine follows_bind (follows_text after (holds_append.mp written).1 length
    (fun j below => .inl (numbuf_own (by omega)))) (fun r _ same => ?_)
  rw [same,show (6-(ustrlen m' b.numbuf).toInt).toNat = 6-(decimal p.pid.toNat).length by omega]
  refine follows_bind (pads_follows placed after _) ?_
  rintro m'' _ rfl
  rw [state]
  refine follows_bind (follows_literal placed after (state_name_literal p.state).1 (state_name_literal p.state).2)
    (fun r _ same => ?_)
  rw [same]
  refine follows_bind (follows_literal placed after (by decide) (by decide)) (fun r _ same => ?_)
  rw [same]
  refine follows_bind (follows_text after (holds_append.mp name).1 nameLength (fun j below => .inl ?_)) (fun r _ same => ?_)
  · rw [BitVec.add_assoc,BitVec.add_assoc,← BitVec.ofNat_add,← BitVec.ofNat_add]
    exact procs_own (by rw [width]; omega)
  rw [same]
  refine follows_bind (follows_literal placed after (by decide) (by decide)) (fun r _ same => ?_)
  rw [same]
  exact .ret ⟨after,table⟩

/-- The loop prints a line for every entry from `i` on. -/
theorem print_rows_follows (placed : l.Placed m₀) {entries : List (List Byte)} {rows : Nat → Row}
    (wellFormed : ∀ i entry, entries[i]? = some entry → (rows i).Entry entry) (few : entries.length ≤ 16) {left i : Nat}
    (rest : i+left = entries.length) (steady : Steady b.Own m₀ m) (here : Holds m b.procs entries.flatten) :
    Follows (l.outside m₀) (fun m' _ => Steady b.Own m₀ m') (print_rows b l left i m)
      (prints (((List.range' i left).map rows).flatMap line)) := by
  have sizes : ∀ entry ∈ entries, entry.length = sizeof_proc_info := by
    intro entry member
    obtain ⟨j,found⟩ := List.getElem?_of_mem member
    exact (wellFormed j entry found).size
  induction left generalizing i m with
  | zero => exact .ret steady
  | succ left ih =>
    have found := List.getElem?_eq_getElem (show i < entries.length by omega)
    rw [List.range'_succ,List.map_cons,List.flatMap_cons,prints_append]
    refine follows_bind (print_row_follows placed steady (by omega) (wellFormed i _ found) (table_entry sizes here found)) ?_
    rintro m' _ ⟨after,table⟩
    refine ih (by omega) after (holds_congr here (fun j below => table j ?_))
    rw [flatten_length sizes] at below
    simp only [sizeof_proc_info,Process.PROC_NAME_MAX] at below
    omega

/-- The end of a round: a line that starts with `q` ends the program. -/
theorem input_follows (steady : Steady b.Own m₀ m) :
    Follows (l.outside m₀) (fun m' _ => Steady b.Own m₀ m')
      (do
        let len ← read b.cmd 15#32 m
        if 0 < len.eax.toInt then
          let m := write8 len.mem (b.cmd+len.eax) 0#8
          if m (b.cmd+0#32) = 113#8 then exit m else return m
        else return len.mem)
      input := by
  refine follows_bind (follows_read b.cmd 15#32 steady (fun j below => cmd_own (lt_trans below (by decide)))
    (by decide)) ?_
  rintro r t ⟨line,_,long,rfl,shows,_,signed,typed,after⟩
  have short : line.length ≤ 15 := long
  simp only [shows]
  cases line with
  | nil => exact .ret after
  | cons c rest =>
    have first : write8 (put m b.cmd (c :: rest)) (b.cmd+BitVec.ofNat 32 (c :: rest).length) 0#8 (b.cmd+0#32) = c := by
      have other : b.cmd+0#32 ≠ b.cmd+BitVec.ofNat 32 (c :: rest).length := by
        rw [List.length_cons] at short ⊢
        bv_omega
      rw [write8,if_neg other]
      exact typed 0 c rfl
    have ended := steady_write8 after (cmd_own (show (c :: rest).length < 16 by omega)) 0#8
    rw [if_pos (by rw [signed,List.length_cons]; omega)]
    simp only [first,List.head?_cons,Option.some_inj]
    by_cases quits : c = 113#8
    · rw [if_pos quits,if_pos quits]
      exact follows_bind (follows_call .exit ended trivial) (fun r t both => both.1.elim)
    · rw [if_neg quits,if_neg quits]
      exact .ret ended

/-- A round of the loop of `main` is a screen. -/
theorem refresh_follows (placed : l.Placed m₀) (steady : Steady b.Own m₀ m) :
    Follows (l.outside m₀) (fun m' _ => Steady b.Own m₀ m') (refresh b l m) (screen cut) := by
  simp only [screen,display,bind_assoc,ret_bind]
  refine follows_bind (follows_call .clear steady trivial) ?_
  rintro r _ ⟨kept,_⟩
  rw [show r = ⟨0#32,m⟩ from kept]
  refine follows_bind (follows_writes placed steady (by decide)) ?_
  rintro m _ rfl
  refine follows_bind (follows_cut placed steady (show rule ∈ literals by decide) (by decide)) (fun r _ same => ?_)
  rw [same]
  refine follows_bind (follows_call (.getprocs b.procs 16#32) steady (fun j below => procs_own ?_)) ?_
  · simp only [sizeof_proc_info,Process.PROC_NAME_MAX] at below
    exact Int.ofNat_lt.mp (lt_of_lt_of_le below (by decide))
  rintro r t ⟨⟨entries,most,wellFormed,rfl⟩,what⟩
  have few : entries.length ≤ 16 := most
  have number : (BitVec.ofNat 32 entries.length).toNat = entries.length := by rw [BitVec.toNat_ofNat]; omega
  have signed : (BitVec.ofNat 32 entries.length).toInt.toNat = entries.length := by
    rw [BitVec.toInt_eq_toNat_of_lt (by omega),number]
    rfl
  have sizes : ∀ entry ∈ entries, entry.length = sizeof_proc_info := by
    intro entry member
    obtain ⟨p,isEntry⟩ := wellFormed entry member
    exact isEntry.size
  have total : entries.flatten.length ≤ 640 := by
    rw [flatten_length sizes]
    simp only [sizeof_proc_info,Process.PROC_NAME_MAX]
    omega
  have held := put_inside m b.procs (show entries.flatten.length ≤ 2^32 by omega)
  have after : Steady b.Own m₀ (put m b.procs entries.flatten) := steady_put steady (fun j below => procs_own (by omega))
  have shows : t.procs = (List.range' 0 entries.length).map (row (put m b.procs entries.flatten) b.procs) := by
    rw [what,← List.range_eq_range']
    change (List.range (BitVec.ofNat 32 entries.length).toNat).map _ = _
    rw [number]
  have read_back : ∀ i entry, entries[i]? = some entry →
      (row (put m b.procs entries.flatten) b.procs i).Entry entry := by
    intro i entry found
    obtain ⟨p,isEntry⟩ := wellFormed entry (List.mem_of_getElem? found)
    rwa [row_entry isEntry (table_entry sizes held found)]
  rw [shows,signed]
  refine follows_bind (print_rows_follows placed read_back few (Nat.zero_add _) after held) (fun m' _ listed => ?_)
  refine follows_bind (follows_literal placed listed (by decide) (by decide)) (fun r _ same => ?_)
  rw [same]
  exact input_follows listed

theorem main_follows (placed : l.Placed m₀) (n : Nat) :
    Follows (l.outside m₀) (fun m' _ => Steady b.Own m₀ m') (main b l n m₀) (Tree.rounds (fun _ => screen cut) n ()) :=
  follows_rounds (fun _ _ steady => refresh_follows placed steady) n steady_refl

end

/-! ### Lines -/

def title : List (List Byte) := [chars "=== Process Viewer (top) ===",[],chars "PID   STATE    NAME"]

def hint : List Byte := chars "Enter to refresh, 'q'+Enter to quit."

def cells (p : Row) : List Byte :=
  decimal p.pid.toNat ++ List.replicate (6-(decimal p.pid.toNat).length) 32#8 ++ chars (state_name p.state) ++ chars "  " ++
    p.name

/-- The table as it is meant: the rule, a line for each process, and an empty line. -/
def table (rows : List Row) : List (List Byte) := chars "----  -------  ----------------" :: (rows.map cells ++ [[]])

/-- The first line is not ended. -/
def unended : List (List Byte) → List (List Byte)
  | first :: second :: rest => (first ++ second) :: rest
  | lines => lines

/-- What has been printed. -/
def printed (said : List (Asked × Told)) : List Byte :=
  said.flatMap (fun e => match e.1 with
    | .print text => text
    | _ => [])

theorem printed_prints {texts : List (List Byte)} {said : List (Asked × Told)} (after : After (prints texts) said (.ret ())) :
    printed said = texts.flatten := by
  induction texts generalizing said with
  | nil =>
    cases after
    rfl
  | cons text rest ih =>
    cases after with
    | answered _ r later =>
      have others := ih later
      rw [printed] at others ⊢
      rw [List.flatMap_cons,others,List.flatten_cons]

theorem printed_append (first rest : List (Asked × Told)) : printed (first ++ rest) = printed first ++ printed rest :=
  List.flatMap_append

theorem asked_alone {q : Asked} {said : List (Asked × Told)} {t : Told} (after : After (.ask q .ret) said (.ret t)) :
    said = [(q,t)] := by
  cases after with
  | answered _ _ later =>
    cases later
    rfl

theorem line_cells (p : Row) : (line p).flatten = cells p ++ [10#8] := by
  have spaces : ∀ n, (List.replicate n (chars " ")).flatten = List.replicate n 32#8 := by
    intro n
    induction n with
    | zero => rfl
    | succ n ih =>
      rw [List.replicate_succ,List.flatten_cons,ih]
      rfl
  simp only [line,cells,List.cons_append,List.flatten_cons,List.flatten_append,spaces,List.flatten_nil,List.append_nil,
    List.append_assoc]
  rfl

theorem joined_append {first rest : List (List Byte)} : joined 10#8 (first ++ rest) = joined 10#8 first ++ joined 10#8 rest :=
  List.flatMap_append

theorem joined_rows (rows : List Row) : (rows.flatMap line).flatten = joined 10#8 (rows.map cells) := by
  induction rows with
  | nil => rfl
  | cons p rest ih =>
    rw [List.flatMap_cons,List.flatten_append,ih,line_cells]
    rfl

/-- The text on display. -/
theorem display_text {rule : List Byte} {said : List (Asked × Told)} {rows : List Row}
    (after : After (display rule) said (.ret rows)) :
    printed said = joined 10#8 title ++ rule ++ joined 10#8 (rows.map cells ++ [[],hint]) := by
  obtain ⟨_,_,_,rfl,cleared,after⟩ := after_bind after
  obtain ⟨_,_,_,rfl,headed,after⟩ := after_bind after
  obtain ⟨_,_,_,rfl,ruled,after⟩ := after_bind after
  obtain ⟨t,_,_,rfl,listed,after⟩ := after_bind after
  obtain ⟨_,_,_,rfl,filled,after⟩ := after_bind after
  obtain ⟨_,_,_,rfl,hinted,after⟩ := after_bind after
  cases after
  rw [asked_alone cleared,asked_alone listed]
  simp only [printed_append,printed_prints headed,printed_prints ruled,printed_prints filled,printed_prints hinted,joined_rows,
    joined_append]
  have heads : (heading.map (fun t => chars t.1)).flatten = joined 10#8 title := by decide +kernel
  have ends : chars footer = joined 10#8 [[],hint] := by decide +kernel
  simp [heads,ends,printed]

theorem joined_unended (first : List Byte) {rest : List (List Byte)} (nonempty : rest ≠ []) :
    joined 10#8 (unended (first :: rest)) = first ++ joined 10#8 rest := by
  cases rest with
  | nil => exact absurd rfl nonempty
  | cons second rest =>
    rw [unended,joined,joined,List.flatMap_cons,List.flatMap_cons]
    simp only [List.append_assoc]

/-- With the whole rule it is the table. -/
theorem display_whole {said : List (Asked × Told)} {rows : List Row} (after : After (display (chars rule)) said (.ret rows)) :
    printed said = joined 10#8 (title ++ table rows ++ [hint]) := by
  have whole : chars rule = joined 10#8 [chars "----  -------  ----------------"] := by decide +kernel
  rw [display_text after,whole,← joined_append,← joined_append,table]
  simp

/-- As it is printed, the first process is on the line of the rule. -/
theorem display_cut {said : List (Asked × Told)} {rows : List Row} (after : After (display cut) said (.ret rows)) :
    printed said = joined 10#8 (title ++ unended (table rows) ++ [hint]) := by
  have part : cut = chars "----  -------  ----------------" := by decide +kernel
  rw [display_text after,part,table]
  simp only [joined_append,joined_unended _ (show rows.map cells ++ [[]] ≠ [] by simp),List.append_assoc]
  rfl

/-- No line of the table has a line end in it, unless a name has. -/
theorem cells_clean {p : Row} (clean : 10#8 ∉ p.name) : 10#8 ∉ cells p := by
  have digits : 10#8 ∉ decimal p.pid.toNat := by
    rw [decimal]
    split
    · decide
    · simp only [backwards,List.mem_reverse,List.mem_map,not_exists,not_and]
      intro d member same
      have small := Nat.digits_lt_base (by decide) member
      have value := congrArg BitVec.toNat same
      rw [digit_toNat small] at value
      simp only [BitVec.toNat_ofNat] at value
      omega
  have states : 10#8 ∉ chars (state_name p.state) := by
    rw [state_name]
    split
    · decide +kernel
    · split <;> decide +kernel
  have gap : 10#8 ∉ chars "  " := by decide +kernel
  simp only [cells,List.mem_append,List.mem_replicate]
  simp [digits,states,gap,clean]

theorem table_clean {rows : List Row} (clean : ∀ p ∈ rows, 10#8 ∉ p.name) :
    (∀ text ∈ table rows, 10#8 ∉ text) ∧ ∀ text ∈ unended (table rows), 10#8 ∉ text := by
  have dashes : 10#8 ∉ chars "----  -------  ----------------" := by decide +kernel
  have rest : ∀ text ∈ rows.map cells ++ [[]], 10#8 ∉ text := by
    intro text member
    rcases List.mem_append.mp member with inRows | isEmpty
    · obtain ⟨p,inside,rfl⟩ := List.mem_map.mp inRows
      exact cells_clean (clean p inside)
    · simp [List.mem_singleton.mp isEmpty]
  rw [table]
  refine ⟨List.forall_mem_cons.mpr ⟨dashes,rest⟩,?_⟩
  generalize rows.map cells ++ [[]] = lines at rest ⊢
  cases lines with
  | nil => simpa [unended] using dashes
  | cons second lines =>
    obtain ⟨first,others⟩ := List.forall_mem_cons.mp rest
    exact List.forall_mem_cons.mpr ⟨by simp [dashes,first],others⟩

/-- Line by line: the table that is meant, and what is on display instead. -/
theorem display_lines {rows : List Row} (clean : ∀ p ∈ rows, 10#8 ∉ p.name) {meant said : List (Asked × Told)}
    (whole : After (display (chars rule)) meant (.ret rows)) (after : After (display cut) said (.ret rows)) :
    (printed meant).splitOn 10#8 = title ++ table rows ++ [hint] ++ [[]] ∧
      (printed said).splitOn 10#8 = title ++ unended (table rows) ++ [hint] ++ [[]] := by
  obtain ⟨tidy,tidyCut⟩ := table_clean clean
  have titles : ∀ text ∈ title, 10#8 ∉ text := by decide +kernel
  have hints : ∀ text ∈ [hint], 10#8 ∉ text := by decide +kernel
  have around : ∀ lines : List (List Byte), (∀ text ∈ lines, 10#8 ∉ text) → ∀ text ∈ title ++ lines ++ [hint], 10#8 ∉ text :=
    fun lines each => List.forall_mem_append.mpr ⟨List.forall_mem_append.mpr ⟨titles,each⟩,hints⟩
  rw [display_whole whole,display_cut after]
  exact ⟨(splitOn_joined_iff _).mpr (around _ tidy),(splitOn_joined_iff _).mpr (around _ tidyCut)⟩

/-- On the machine: a process that runs `top` shows screen after screen. -/
theorem screens_on_machine {b : Buffers} {l : Layout literals b.Own} {m : Memory} (placed : l.Placed m)
    {said : List (Query × Reply)} (served : Contract.Served m said) {n : Nat} {left : Code Memory}
    (talk : After (main b l n m) said left) :
    (∀ e ∈ said, Steady b.Own m e.1.mem ∧ l.Proper e.1) ∧
      ∃ left', After (Tree.rounds (fun _ => screen cut) n ()) (said.map (fun e => (shown e.1,told e.1 e.2))) left' ∧
        Follows (l.outside m) (fun m' _ => Steady b.Own m m') left left' :=
  follows_after (main_follows placed n) talk (Contract.served_keeps served)

/-- Every conversation of `top` with a kernel that keeps its contract goes screen by
    screen, and goes on so. All the while nothing has changed but the buffers, and the
    kernel is handed nothing else to write to. On display is the table without the line
    end after the rule. -/
theorem top_screens {b : Buffers} {l : Layout literals b.Own} {m : Memory} (placed : l.Placed m) {n : Nat}
    {said : List (Query × Reply)} {left : Code Memory} (talk : After (main b l n m) said left)
    (kept : ∀ e ∈ said, Keeps e.1 e.2) :
    (∀ e ∈ said, Steady b.Own m e.1.mem ∧ l.Proper e.1) ∧
      (∃ left', After (Tree.rounds (fun _ => screen cut) n ()) (said.map (fun e => (shown e.1,told e.1 e.2))) left' ∧
        Follows (l.outside m) (fun m' _ => Steady b.Own m m') left left') ∧
      ∀ one rows, After (display cut) one (.ret rows) → printed one = joined 10#8 (title ++ unended (table rows) ++ [hint]) := by
  obtain ⟨fine,goesOn⟩ := follows_after (main_follows placed n) talk kept
  exact ⟨fine,goesOn,fun _ _ => display_cut⟩

theorem sample_number_apart : ∀ i < 640, ∀ j < 12, 0xBFFFFC00#32+BitVec.ofNat 32 i ≠ 0xBFFFFF00#32+BitVec.ofNat 32 j := by
  intro i below j small
  bv_omega

def sampleBuffers : Buffers := ⟨0xBFFFFC00#32,0xBFFFFF80#32,0xBFFFFF00#32,sample_number_apart⟩

theorem sample_above : ∀ a, sampleBuffers.Own a → 0x2000 ≤ a.toNat := by
  rintro a (⟨j,below,rfl⟩ | ⟨j,below,rfl⟩ | ⟨j,below,rfl⟩)
  · simp only [sampleBuffers]
    bv_omega
  · simp only [sampleBuffers]
    bv_omega
  · simp only [sampleBuffers]
    bv_omega

def sampleLayout : Layout literals sampleBuffers.Own := packedLayout (by decide) (by decide) sample_above

def sampleMemory : Memory := loaded 0x1000#32 (packed literals)

theorem sample_placed : sampleLayout.Placed sampleMemory := packed_placed (by decide) (by decide) sample_above

def sampleRows : List Row := [⟨1#32,1#32,chars "shell"⟩,⟨2#32,2#32,chars "top"⟩]

theorem sample_entries : ∀ p ∈ sampleRows, p.Entry p.entry := by
  have names : Text (chars "shell") ∧ Text (chars "top") := by
    simp only [Text]
    decide
  simp only [sampleRows,List.forall_mem_cons,List.not_mem_nil,false_imp_iff,implies_true,and_true]
  exact ⟨⟨by decide,names.1,⟨List.replicate 26 0#8,rfl⟩,rfl⟩,⟨by decide,names.2,⟨List.replicate 28 0#8,rfl⟩,rfl⟩⟩

/-- The shell waits while `top` runs, which is told to quit. -/
theorem top_screens_two : ∃ said left left', sampleLayout.Placed sampleMemory ∧
    After (main sampleBuffers sampleLayout 1 sampleMemory) said left ∧
    printed (said.map (fun e => (shown e.1,told e.1 e.2))) = joined 10#8
      [chars "=== Process Viewer (top) ===",[],chars "PID   STATE    NAME",
        chars "----  -------  ----------------1     READY    shell",chars "2     RUNNING  top",[],
        chars "Enter to refresh, 'q'+Enter to quit."] ∧
    After (Tree.rounds (fun _ => screen cut) 1 ()) (said.map (fun e => (shown e.1,told e.1 e.2))) left' ∧
    Follows (sampleLayout.outside sampleMemory) (fun m' _ => Steady sampleBuffers.Own sampleMemory m') left left' := by
  have text : Text (chars "q\n") := by
    simp only [Text]
    decide
  have keeps : ∀ q r, answer (chars "q\n") sampleRows q = some r → Keeps q r := fun q r => answer_keeps sample_entries text
  have talk := play_after (answer (chars "q\n") sampleRows) (main sampleBuffers sampleLayout 1 sampleMemory)
  obtain ⟨_,⟨left',after,follows⟩,_⟩ := top_screens sample_placed talk
    (fun e member => keeps e.1 e.2 (play_answered _ e member))
  refine ⟨_,_,left',sample_placed,talk,?_,after,follows⟩
  have same := congrArg printed (follows_play (main_follows sample_placed 1) keeps (answer_told sample_entries (by decide)))
  exact same.trans (by decide +kernel)

end SoKernel.Top
