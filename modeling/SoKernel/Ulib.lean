import SoKernel.CallerBuffers

/-!
Numbers on the screen. The programs have no C library; `ulib.h` gives them `itoa`,
which writes the digits of a number from the last to the first and then turns them
round in place, and `ustrlen`. `top` prints the pids of the processes with them,
through a buffer of 12 bytes.
-/
namespace SoKernel.Ulib
open SoKernel.Words SoKernel.Process SoKernel.Syscalls SoKernel.CallerBuffers
set_option linter.unusedSimpArgs false

/-! ### Turning a list round in place -/

section Swaps
variable {α : Type}

/-- The list after its first `k` elements have been exchanged with the last `k`. -/
def swapped (l : List α) (k : Nat) : List α :=
  List.ofFn (fun p : Fin l.length => if p.val < k ∨ l.length-k ≤ p.val then l[l.length-1-p.val] else l[p.val])

@[simp] theorem swapped_length (l : List α) (k : Nat) : (swapped l k).length = l.length := List.length_ofFn

theorem swapped_get (l : List α) (k : Nat) {p : Nat} (inside : p < l.length) :
    (swapped l k)[p]? = if p < k ∨ l.length-k ≤ p then l[l.length-1-p]? else l[p]? := by
  rw [swapped,List.getElem?_ofFn,dif_pos inside]
  split
  · rw [List.getElem?_eq_getElem (by omega)]
  · rw [List.getElem?_eq_getElem inside]

theorem swapped_zero (l : List α) : swapped l 0 = l := by
  refine List.ext_getElem?' (fun p within => ?_)
  have inside : p < l.length := by simpa using within
  rw [swapped_get l 0 inside,if_neg (by omega)]

/-- The next exchange. -/
theorem swapped_succ (l : List α) {k : Nat} {first last : α} (half : k < l.length/2) (isFirst : (swapped l k)[k]? = some first)
    (isLast : (swapped l k)[l.length-1-k]? = some last) :
    ((swapped l k).set k last).set (l.length-1-k) first = swapped l (k+1) := by
  rw [swapped_get l k (by omega),if_neg (by omega)] at isFirst isLast
  refine List.ext_getElem?' (fun p within => ?_)
  have inside : p < l.length := by simpa using within
  rw [swapped_get l (k+1) inside,List.getElem?_set,List.getElem?_set,swapped_get l k inside,List.length_set,swapped_length]
  by_cases atLast : l.length-1-k = p
  · subst atLast
    have mirror : l.length-1-(l.length-1-k) = k := by omega
    rw [if_pos rfl,if_pos inside,if_pos (by omega),mirror,isFirst]
  · rw [if_neg atLast]
    by_cases atFirst : k = p
    · subst atFirst
      rw [if_pos rfl,if_pos inside,if_pos (by omega),isLast]
    · rw [if_neg atFirst]
      by_cases done : p < k ∨ l.length-k ≤ p
      · rw [if_pos done,if_pos (by omega)]
      · rw [if_neg done,if_neg (by omega)]

/-- Half as many exchanges as there are elements turn the list round; with an odd number
    the one in the middle stays where it is. -/
theorem swapped_half (l : List α) : swapped l (l.length/2) = l.reverse := by
  refine List.ext_getElem?' (fun p within => ?_)
  have inside : p < l.length := by simpa using within
  rw [swapped_get l _ inside,List.getElem?_reverse inside]
  by_cases middle : p < l.length/2 ∨ l.length-l.length/2 ≤ p
  · rw [if_pos middle]
  · have same : l.length-1-p = p := by omega
    rw [if_neg middle,same]

end Swaps

/-! ### Decimal numerals -/

def Digit (c : Byte) : Prop := 0x30 ≤ c.toNat ∧ c.toNat ≤ 0x39

/-- A text read as a number in base 10. -/
def numeric (text : List Byte) : Nat := text.foldl (fun value c => 10*value+(c.toNat-0x30)) 0

/-- A text is the decimal numeral of a number: digits without a leading zero, except
    for zero itself. -/
structure Numeral (text : List Byte) (n : Int) : Prop where
  nonempty : text ≠ []
  digits : ∀ c ∈ text, Digit c
  leading : text.head? = some 0x30#8 → text = [0x30#8]
  value : (numeric text : Int) = n

/-- The character of a digit. -/
def digit (d : Nat) : Byte := BitVec.ofNat 8 (0x30+d)

/-- The digits of a number, the last one first. -/
def backwards (n : Nat) : List Byte := (Nat.digits 10 n).map digit

theorem digit_toNat {d : Nat} (small : d < 10) : (digit d).toNat = 0x30+d := by
  rw [digit,BitVec.toNat_ofNat,Nat.mod_eq_of_lt (by omega)]

theorem backwards_digit {n : Nat} {c : Byte} (member : c ∈ backwards n) : ∃ d < 10, c = digit d := by
  obtain ⟨d,inside,rfl⟩ := List.mem_map.mp member
  exact ⟨d,Nat.digits_lt_base (by decide) inside,rfl⟩

theorem backwards_next {n : Nat} (positive : 0 < n) : backwards n = digit (n % 10) :: backwards (n/10) := by
  rw [backwards,Nat.digits_def' (by decide) positive]
  rfl

theorem backwards_length {n k : Nat} (bound : n < 10^k) : (backwards n).length ≤ k := by
  rw [backwards,List.length_map]
  exact (Nat.digits_length_le_iff (by decide) n).mpr bound

theorem numeric_reverse {ds : List Nat} (small : ∀ d ∈ ds, d < 10) :
    numeric (ds.map digit).reverse = Nat.ofDigits 10 ds := by
  induction ds with
  | nil => rfl
  | cons d rest ih =>
    have first : (digit d).toNat = 0x30+d := digit_toNat (small d List.mem_cons_self)
    have later := ih (fun e inside => small e (List.mem_cons_of_mem d inside))
    rw [numeric] at later ⊢
    rw [List.map_cons,List.reverse_cons,List.foldl_append,later,List.foldl_cons,List.foldl_nil,first,Nat.ofDigits_cons]
    omega

/-- Turned round, the digits are the numeral. -/
theorem numeral_reverse {n : Nat} (positive : 0 < n) : Numeral (backwards n).reverse n := by
  have notEmpty : backwards n ≠ [] := by
    rw [backwards_next positive]
    exact List.cons_ne_nil _ _
  constructor
  case nonempty => simpa using notEmpty
  case digits =>
    intro c member
    obtain ⟨d,small,rfl⟩ := backwards_digit (List.mem_reverse.mp member)
    rw [Digit,digit_toNat small]
    omega
  case leading =>
    -- The first digit is the last one that was found, which is not zero.
    intro zero
    rw [List.head?_reverse,backwards,List.getLast?_map] at zero
    obtain ⟨d,last,isZero⟩ := Option.map_eq_some_iff.mp zero
    have small : d < 10 := Nat.digits_lt_base (by decide) (List.mem_of_getLast? last)
    have character := congrArg BitVec.toNat isZero
    rw [digit_toNat small,BitVec.toNat_ofNat] at character
    have nonzero := Nat.getLast_digit_ne_zero 10 (show n ≠ 0 by omega)
    rw [List.getLast?_eq_some_getLast (Nat.digits_ne_nil_iff_ne_zero.mpr (by omega)),Option.some_inj] at last
    rw [last] at nonzero
    omega
  case value => rw [backwards,numeric_reverse (fun d => Nat.digits_lt_base (by decide)),Nat.ofDigits_digits]

theorem numeral_zero : Numeral [0x30#8] 0 := by
  refine ⟨by decide,?_,fun _ => rfl,rfl⟩
  intro c member
  rw [List.mem_singleton.mp member]
  exact ⟨by decide,by decide⟩

/-! ### The functions -/

/-- The memory of a program, and the addresses that it has stored to. -/
structure Stores where
  mem : Memory
  stored : List Word

namespace Stores

def put (s : Stores) (a : Word) (b : Byte) : Stores := ⟨write8 s.mem a b,a :: s.stored⟩

end Stores

theorem msb_nonneg {n : Word} (nonneg : 0 ≤ n.toInt) : n.msb = false := by
  rw [BitVec.msb_eq_toInt]
  simpa using nonneg

theorem toInt_nonneg {n : Word} (nonneg : 0 ≤ n.toInt) : n.toInt = n.toNat :=
  BitVec.toInt_eq_toNat_of_msb (msb_nonneg nonneg)

/-- The signed operations on a number that is not negative. -/
theorem sdiv_ten {n : Word} (nonneg : 0 ≤ n.toInt) : (n.sdiv 10#32).toNat = n.toNat/10 := by
  rw [BitVec.sdiv_eq,msb_nonneg nonneg,show (10#32 : Word).msb = false by decide]
  simp only [BitVec.udiv_eq]
  exact BitVec.toNat_udiv

theorem srem_ten {n : Word} (nonneg : 0 ≤ n.toInt) : (n.srem 10#32).toNat = n.toNat % 10 := by
  rw [BitVec.srem_eq,msb_nonneg nonneg,show (10#32 : Word).msb = false by decide]
  exact BitVec.toNat_umod

theorem digit_char {n : Word} (nonneg : 0 ≤ n.toInt) : (0x30#32+n.srem 10#32).setWidth 8 = digit (n.toNat % 10) := by
  refine BitVec.eq_of_toNat_eq ?_
  rw [digit_toNat (by omega),BitVec.toNat_setWidth,BitVec.toNat_add,srem_ten nonneg,BitVec.toNat_ofNat]
  omega

/-- The loop of `itoa` that writes the digits, with the number of digits so far. -/
def itoa_digits (buf : Word) (n : Word) (i : Nat) (s : Stores) : Nat × Stores :=
  if 0 < n.toInt then
    itoa_digits buf (n.sdiv 10#32) (i+1) (s.put (buf+BitVec.ofNat 32 i) ((0x30#32+n.srem 10#32).setWidth 8))
  else (i,s)
termination_by n.toNat
decreasing_by
  rename_i positive
  have value := toInt_nonneg (le_of_lt positive)
  rw [sdiv_ten (le_of_lt positive)]
  omega

/-- The loop of `itoa` that turns the `i` digits round. -/
def itoa_reverse (buf : Word) (i : Nat) (s : Stores) : Stores :=
  (i/2).fold (fun j _ s =>
    let tmp := s.mem (buf+BitVec.ofNat 32 j)
    let s := s.put (buf+BitVec.ofNat 32 j) (s.mem (buf+BitVec.ofNat 32 (i-1-j)))
    s.put (buf+BitVec.ofNat 32 (i-1-j)) tmp) s

def itoa (n buf : Word) (s : Stores) : Stores :=
  if n = 0#32 then (s.put (buf+0#32) 0x30#8).put (buf+1#32) 0#8
  else
    let written := itoa_digits buf n 0 s
    itoa_reverse buf written.1 (written.2.put (buf+BitVec.ofNat 32 written.1) 0#8)

/-! ### The buffer -/

/-- The buffer starts with a text, all stores so far went to its first `room` bytes, and
    no other memory has changed. -/
structure Buffered (m : Memory) (buf : Word) (room : Nat) (text : List Byte) (s : Stores) : Prop where
  here : Holds s.mem buf text
  stored : ∀ a ∈ s.stored, ∃ j < room, a = buf+BitVec.ofNat 32 j
  rest : ∀ a, (∀ j < room, a ≠ buf+BitVec.ofNat 32 j) → s.mem a = m a

section Buffer
variable {m : Memory} {buf : Word} {room : Nat} {text : List Byte} {s : Stores}

theorem buffered_start (m : Memory) (buf : Word) (room : Nat) : Buffered m buf room [] ⟨m,[]⟩ :=
  ⟨by simp [Holds],by simp,fun _ _ => rfl⟩

theorem buffered_put (small : room ≤ 2^32) (buffered : Buffered m buf room text s) {i : Nat} {b : Byte} {text' : List Byte}
    (fits : text'.length ≤ room) (new : text'[i]? = some b) (others : ∀ j, j ≠ i → text'[j]? = text[j]?) :
    Buffered m buf room text' (s.put (buf+BitVec.ofNat 32 i) b) := by
  have inside : i < text'.length := (List.getElem?_eq_some_iff.mp new).1
  constructor
  case here =>
    intro j c found
    have below : j < text'.length := (List.getElem?_eq_some_iff.mp found).1
    change write8 s.mem (buf+BitVec.ofNat 32 i) b (buf+BitVec.ofNat 32 j) = c
    by_cases same : j = i
    · rw [write8,same,if_pos rfl]
      rw [same,new] at found
      exact Option.some_inj.mp found
    · have apart : buf+BitVec.ofNat 32 j ≠ buf+BitVec.ofNat 32 i := by bv_omega
      rw [write8,if_neg apart]
      rw [others j same] at found
      exact buffered.here j c found
  case stored =>
    intro a member
    rcases List.mem_cons.mp member with rfl | old
    · exact ⟨i,by omega,rfl⟩
    · exact buffered.stored a old
  case rest =>
    intro a outside
    change write8 s.mem (buf+BitVec.ofNat 32 i) b a = m a
    rw [write8,if_neg (outside i (by omega))]
    exact buffered.rest a outside

theorem buffered_append (small : room ≤ 2^32) (buffered : Buffered m buf room text s) (fits : text.length < room) (b : Byte) :
    Buffered m buf room (text++[b]) (s.put (buf+BitVec.ofNat 32 text.length) b) := by
  refine buffered_put small buffered (by simpa using fits) (by simp) (fun j other => ?_)
  by_cases below : j < text.length
  · rw [List.getElem?_append_left below]
  · rw [List.getElem?_eq_none (by simp; omega),List.getElem?_eq_none (by omega)]

theorem buffered_set (small : room ≤ 2^32) (buffered : Buffered m buf room text s) (fits : text.length ≤ room) {i : Nat}
    (inside : i < text.length) (b : Byte) : Buffered m buf room (text.set i b) (s.put (buf+BitVec.ofNat 32 i) b) := by
  refine buffered_put small buffered (by simpa using fits) (List.getElem?_set_self inside) (fun j other => ?_)
  exact List.getElem?_set_ne (Ne.symm other)

/-- The first loop appends the digits, the last one first. -/
theorem itoa_digits_buffered (small : room ≤ 2^32) {n : Word} (nonneg : 0 ≤ n.toInt) {i : Nat} (count : i = text.length)
    (buffered : Buffered m buf room text s) (fits : text.length+(backwards n.toNat).length ≤ room) :
    (itoa_digits buf n i s).1 = (text++backwards n.toNat).length ∧
      Buffered m buf room (text++backwards n.toNat) (itoa_digits buf n i s).2 := by
  fun_induction itoa_digits buf n i s generalizing text with
  | case1 n i s positive ih =>
    have value := toInt_nonneg nonneg
    have quotient := sdiv_ten nonneg
    have smaller : 0 ≤ (n.sdiv 10#32).toInt := by
      have bound := BitVec.toInt_pos_iff.mp nonneg
      refine BitVec.toInt_pos_iff.mpr ?_
      rw [quotient]
      omega
    have next := backwards_next (show 0 < n.toNat by omega)
    rw [next,List.length_cons] at fits
    have appended := buffered_append small buffered (by omega) (digit (n.toNat % 10))
    rw [← count,← digit_char nonneg] at appended
    have later := ih smaller (by rw [List.length_append,count,List.length_singleton]) appended (by
      rw [List.length_append,List.length_singleton,quotient]
      omega)
    rw [digit_char nonneg,quotient,List.append_assoc] at later
    rw [next,digit_char nonneg]
    exact later
  | case2 n i s done =>
    have value := toInt_nonneg nonneg
    have none : backwards n.toNat = [] := by
      rw [show n.toNat = 0 by omega]
      rfl
    rw [none,List.append_nil]
    exact ⟨count,buffered⟩

/-- The second loop turns the digits round and leaves what follows them alone. -/
theorem itoa_reverse_buffered (small : room ≤ 2^32) {digits tail : List Byte} (fits : (digits++tail).length ≤ room)
    (buffered : Buffered m buf room (digits++tail) s) :
    Buffered m buf room (digits.reverse++tail) (itoa_reverse buf digits.length s) := by
  rw [← swapped_half,itoa_reverse]
  refine fold_invariant (fun k s => Buffered m buf room (swapped digits k++tail) s) (by rwa [swapped_zero]) ?_
  intro k half t ih
  have near : k < (swapped digits k).length := by
    rw [swapped_length]
    omega
  have far : digits.length-1-k < (swapped digits k).length := by
    rw [swapped_length]
    omega
  have first := List.getElem?_eq_getElem near
  have last := List.getElem?_eq_getElem far
  have firstHere : t.mem (buf+BitVec.ofNat 32 k) = (swapped digits k)[k] :=
    ih.here k _ (by rw [List.getElem?_append_left near,first])
  have lastHere : t.mem (buf+BitVec.ofNat 32 (digits.length-1-k)) = (swapped digits k)[digits.length-1-k] :=
    ih.here _ _ (by rw [List.getElem?_append_left far,last])
  have size : (swapped digits k++tail).length ≤ room := by
    rw [List.length_append,swapped_length,← List.length_append]
    exact fits
  have one := buffered_set small ih size (i := k) (by rw [List.length_append]; omega) (swapped digits k)[digits.length-1-k]
  have both := buffered_set small one (by rwa [List.length_set]) (i := digits.length-1-k)
    (by rw [List.length_set,List.length_append]; omega) (swapped digits k)[k]
  rw [List.set_append_left _ _ near,List.set_append_left _ _ (by rwa [List.length_set]),swapped_succ digits half first last] at both
  simp only [firstHere,lastHere]
  exact both

end Buffer

/-- A number below `10^k` takes at most `k` digits and the zero behind them. -/
theorem itoa_buffered {n : Word} (nonneg : 0 ≤ n.toInt) {k : Nat} (positive : 0 < k) (bound : n.toNat < 10^k)
    (small : k+1 ≤ 2^32) (buf : Word) (m : Memory) :
    ∃ text, Numeral text n.toInt ∧ text.length ≤ k ∧ Buffered m buf (k+1) (text++[0#8]) (itoa n buf ⟨m,[]⟩) := by
  have begins := buffered_start m buf (k+1)
  rw [itoa]
  by_cases zero : n = 0#32
  · subst zero
    rw [if_pos rfl]
    refine ⟨[0x30#8],numeral_zero,positive,?_⟩
    have one := buffered_append small begins (by simp) 0x30#8
    exact buffered_append small one (by simpa using positive) 0#8
  · rw [if_neg zero]
    have value := toInt_nonneg nonneg
    have nonzero : 0 < n.toNat := Nat.pos_of_ne_zero (fun isZero => zero (BitVec.eq_of_toNat_eq isZero))
    have length := backwards_length bound
    obtain ⟨count,written⟩ := itoa_digits_buffered small nonneg (i := 0) rfl begins
      (by rw [List.length_nil]; omega)
    rw [List.nil_append] at count written
    have ended := buffered_append small written (by omega) 0#8
    simp only [count]
    refine ⟨(backwards n.toNat).reverse,?_,by rwa [List.length_reverse],?_⟩
    · rw [value]
      exact numeral_reverse nonzero
    · exact itoa_reverse_buffered small (by rw [List.length_append,List.length_singleton]; omega) ended

/-- `itoa` writes the decimal numeral of every `int` that is not negative and a zero, and
    stores to nothing but the first 11 bytes of its buffer. -/
theorem itoa_writes_numeral {n : Word} (nonneg : 0 ≤ n.toInt) (buf : Word) (m : Memory) :
    ∃ text, Numeral text n.toInt ∧ text.length+1 ≤ 11 ∧ Buffered m buf 11 (text++[0#8]) (itoa n buf ⟨m,[]⟩) := by
  have bound := BitVec.toInt_pos_iff.mp nonneg
  obtain ⟨text,numeral,short,buffered⟩ := itoa_buffered nonneg (k := 10) (by decide) (by omega) (by decide) buf m
  exact ⟨text,numeral,by omega,buffered⟩

/-- The largest `int`. -/
theorem itoa_writes_numeral_largest : 0 ≤ (0x7FFFFFFF#32 : Word).toInt ∧
    ∃ text, Numeral text 2147483647 ∧ text.length+1 ≤ 11 ∧
      Buffered (fun _ => 0#8) 0x1000#32 11 (text++[0#8]) (itoa 0x7FFFFFFF#32 0x1000#32 ⟨fun _ => 0#8,[]⟩) := by
  have nonneg : 0 ≤ (0x7FFFFFFF#32 : Word).toInt := by decide
  exact ⟨nonneg,itoa_writes_numeral nonneg 0x1000#32 (fun _ => 0#8)⟩

/-- `ustrlen` is the `strlen` of the kernel. -/
def ustrlen (m : Memory) (s : Word) : Word := strlen m s

end SoKernel.Ulib
