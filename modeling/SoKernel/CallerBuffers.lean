import SoKernel.Syscalls

/-!
The buffers that callers declare. Three system calls store to a buffer whose size
the caller gives: `SYS_READ`, `SYS_LISTFILES` and `SYS_GETPROCS`. What they store
stays inside it and what they return describes bytes that were stored, but for
`SYS_LISTFILES` with no room for its terminating zero, or with a name so long that
its end wraps around the address space.
-/
namespace SoKernel.CallerBuffers
open SoKernel.Words SoKernel.Pages SoKernel.Pfa SoKernel.Paging SoKernel.PageTables SoKernel.Fs SoKernel.Process
  SoKernel.Keyboard SoKernel.Console SoKernel.Kmain SoKernel.Syscalls
set_option linter.unusedSimpArgs false

/-! ### The length of a string -/

theorem strlen_from_nonzero {m : Memory} {s : Word} {left len i : Nat} (low : len ≤ i)
    (before : i < strlen_from m s left len) : m (s+BitVec.ofNat 32 i) ≠ 0#8 := by
  induction left generalizing len with
  | zero =>
    rw [strlen_from] at before
    omega
  | succ left ih =>
    rw [strlen_from] at before
    split at before
    · omega
    · rename_i nonzero
      by_cases here : len = i
      · exact here ▸ nonzero
      · exact ih (by omega) before

theorem strlen_nonzero {m : Memory} {s : Word} {i : Nat} (before : i < (strlen m s).toNat) :
    m (s+BitVec.ofNat 32 i) ≠ 0#8 := by
  have most : (strlen m s).toNat ≤ strlen_from m s (2^32) 0 := by
    rw [strlen,BitVec.toNat_ofNat]
    exact Nat.mod_le _ _
  exact strlen_from_nonzero (Nat.zero_le i) (lt_of_lt_of_le before most)

theorem strlen_from_zero {m : Memory} {s : Word} {left len : Nat} (found : strlen_from m s left len < len+left) :
    m (s+BitVec.ofNat 32 (strlen_from m s left len)) = 0#8 := by
  induction left generalizing len with
  | zero =>
    rw [strlen_from] at found
    omega
  | succ left ih =>
    rw [strlen_from] at found ⊢
    split
    · assumption
    · rename_i nonzero
      rw [if_neg nonzero] at found
      exact ih (by omega)

/-- The length of a string is the offset of its first zero byte. -/
theorem strlen_eq {m : Memory} {s : Word} {n : Nat} (bound : n < 2^32) (zero : m (s+BitVec.ofNat 32 n) = 0#8)
    (before : ∀ i < n, m (s+BitVec.ofNat 32 i) ≠ 0#8) : (strlen m s).toNat = n := by
  have most : strlen_from m s (2^32) 0 ≤ n := strlen_from_le zero (Nat.zero_le n)
  have least : ¬ strlen_from m s (2^32) 0 < n := fun less => before _ less (strlen_from_zero (by omega))
  rw [strlen,BitVec.toNat_ofNat,Nat.mod_eq_of_lt (by omega)]
  omega

/-- The length of a string depends only on where the zero bytes are. -/
theorem strlen_congr {m m' : Memory} (same : ∀ a, m' a = 0#8 ↔ m a = 0#8) (s : Word) : strlen m' s = strlen m s := by
  have rounds : ∀ left len, strlen_from m' s left len = strlen_from m s left len := by
    intro left
    induction left with
    | zero => exact fun _ => rfl
    | succ left ih =>
      intro len
      rw [strlen_from,strlen_from]
      simp only [same,ih]
  rw [strlen,strlen,rounds]

/-! ### The buffer fills up -/

/-- The first `pos` bytes of the buffer have been stored to, and no others. None of them
    is zero, and where a zero byte was elsewhere, there is still one. -/
structure Filled (f : Word → Word) (m : Memory) (buf : Word) (pos : Nat) (t : Touched) : Prop where
  stored : ∀ a, a ∈ t.stored ↔ ∃ j < pos, a = buf+BitVec.ofNat 32 j
  zeros : ∀ p, t.mem p = 0#8 ↔ m p = 0#8 ∧ ∀ j < pos, p ≠ f (buf+BitVec.ofNat 32 j)

section Listing
variable {f : Word → Word} {m : Memory} {fs : FsInstance} {buf buf_size : Word} {pos : Nat} {t : Touched}

theorem stored_put (stored : ∀ a, a ∈ t.stored ↔ ∃ j < pos, a = buf+BitVec.ofNat 32 j) (b : Byte) (a : Word) :
    a ∈ (t.put (fun _ => f) (buf+BitVec.ofNat 32 pos) b).stored ↔ ∃ j < pos+1, a = buf+BitVec.ofNat 32 j := by
  change a ∈ (buf+BitVec.ofNat 32 pos) :: t.stored ↔ _
  rw [List.mem_cons,stored]
  constructor
  · rintro (rfl | ⟨j,below,rfl⟩)
    · exact ⟨pos,by omega,rfl⟩
    · exact ⟨j,by omega,rfl⟩
  · rintro ⟨j,below,rfl⟩
    by_cases last : j = pos
    · exact .inl (by rw [last])
    · exact .inr ⟨j,by omega,rfl⟩

theorem filled_put (filled : Filled f m buf pos t) {b : Byte} (nonzero : b ≠ 0#8) :
    Filled f m buf (pos+1) (t.put (fun _ => f) (buf+BitVec.ofNat 32 pos) b) := by
  refine ⟨stored_put filled.stored b,?_⟩
  intro p
  change write8 t.mem (f (buf+BitVec.ofNat 32 pos)) b p = 0#8 ↔ _
  by_cases here : p = f (buf+BitVec.ofNat 32 pos)
  · rw [write8,if_pos here]
    refine iff_of_false nonzero ?_
    rintro ⟨_,apart⟩
    exact apart pos (by omega) here
  · rw [write8,if_neg here,filled.zeros]
    refine and_congr_right (fun _ => ⟨fun apart j below => ?_,fun apart j below => apart j (by omega)⟩)
    by_cases last : j = pos
    · rw [last]
      exact here
    · exact apart j (by omega)

/-- A copy of bytes that are not zero, wherever they lie. -/
theorem filled_copy (filled : Filled f m buf pos t) {src : Word} {n : Nat}
    (nonzero : ∀ i < n, t.mem (f (src+BitVec.ofNat 32 i)) ≠ 0#8) :
    Filled f m buf (pos+n) (t.copy (fun _ => f) (buf+BitVec.ofNat 32 pos) src n) := by
  induction n with
  | zero => exact filled
  | succ n ih =>
    have before := ih (fun i below => nonzero i (by omega))
    -- What the copy has overwritten already is not zero either.
    have loaded : load8 (fun _ => f) (t.copy (fun _ => f) (buf+BitVec.ofNat 32 pos) src n).mem (src+BitVec.ofNat 32 n) ≠ 0#8 := by
      intro zero
      obtain ⟨old,apart⟩ := (before.zeros _).mp zero
      exact nonzero n (by omega) ((filled.zeros _).mpr ⟨old,fun j below => apart j (by omega)⟩)
    rw [copy_succ,BitVec.add_assoc,← BitVec.ofNat_add]
    exact filled_put before loaded

/-! ### Where the names go -/

/-- Memory as `fs_list` sees it when the first `pos` bytes of the buffer are filled, as
    far as zero bytes go. -/
def written (f : Word → Word) (m : Memory) (buf : Word) (pos : Nat) : Memory := fun a =>
  if ∃ j < pos, f a = f (buf+BitVec.ofNat 32 j) then 10#8 else m (f a)

/-- The length of a name that is listed from `pos` on. -/
def name_length (f : Word → Word) (m : Memory) (fs : FsInstance) (buf : Word) (i pos : Nat) : Nat :=
  (strlen (written f m buf pos) (entry_addr fs i)).toNat

/-- The bytes that the first names take with their newlines, if they fit. -/
def position (f : Word → Word) (m : Memory) (fs : FsInstance) (buf buf_size : Word) : Nat → Option Nat
  | 0 => some 0
  | i+1 => (position f m fs buf buf_size i).bind fun pos =>
    if pos+name_length f m fs buf i pos+1 < buf_size.toNat then some (pos+name_length f m fs buf i pos+1) else none

/-- No name that comes to be listed is so long that its end wraps around. -/
def Roomy (f : Word → Word) (m : Memory) (fs : FsInstance) (buf buf_size : Word) (files : Nat) : Prop :=
  ∀ i < files, ∀ pos, position f m fs buf buf_size i = some pos → pos+1 < buf_size.toNat →
    pos+name_length f m fs buf i pos+1 < 2^32

theorem position_next {i : Nat} (here : position f m fs buf buf_size i = some pos) :
    position f m fs buf buf_size (i+1) =
      if pos+name_length f m fs buf i pos+1 < buf_size.toNat then some (pos+name_length f m fs buf i pos+1) else none := by
  rw [position,here,Option.bind_some]

theorem position_lt {i : Nat} (positive : 0 < buf_size.toNat) (here : position f m fs buf buf_size i = some pos) :
    pos < buf_size.toNat := by
  cases i with
  | zero =>
    cases here
    exact positive
  | succ i =>
    obtain ⟨before,_,here⟩ := Option.bind_eq_some_iff.mp here
    split at here
    · rename_i fits
      cases here
      exact fits
    · cases here

/-- Names that come later are listed only when all before them are. -/
theorem position_before {i k last : Nat} (earlier : i ≤ k) (later : position f m fs buf buf_size k = some last) :
    ∃ pos ≤ last, position f m fs buf buf_size i = some pos := by
  induction k generalizing last with
  | zero => exact ⟨last,le_refl _,by rwa [Nat.le_zero.mp earlier]⟩
  | succ k ih =>
    rcases Nat.le_or_eq_of_le_succ earlier with before | rfl
    · obtain ⟨middle,here,_⟩ := Option.bind_eq_some_iff.mp later
      rw [position_next here,Option.ite_none_right_eq_some] at later
      have next := Option.some.inj later.2
      obtain ⟨pos,least,found⟩ := ih before here
      exact ⟨pos,by omega,found⟩
    · exact ⟨last,le_refl _,later⟩

theorem strlen_filled (filled : Filled f m buf pos t) (i : Nat) :
    (strlen (seen (fun _ => f) t.mem) (entry_addr fs i)).toNat = name_length f m fs buf i pos := by
  rw [name_length,strlen_congr]
  intro a
  change t.mem (f a) = 0#8 ↔ _
  rw [filled.zeros,written]
  split
  · rename_i inside
    obtain ⟨j,below,same⟩ := inside
    refine iff_of_false ?_ (by decide)
    rintro ⟨_,apart⟩
    exact apart j below same
  · rename_i outside
    exact and_iff_left (fun j below same => outside ⟨j,below,same⟩)

/-- The loop is at its end. -/
theorem fs_list_from_full {left i : Nat} (bound : pos < buf_size.toNat) (full : ¬ pos+1 < buf_size.toNat) :
    fs_list_from (fun _ => f) fs buf buf_size (left+1) i (BitVec.ofNat 32 pos) t = (BitVec.ofNat 32 pos,t) := by
  rw [fs_list_from,if_neg]
  bv_omega

/-- The bytes of a name are not zero. -/
theorem nonzero_filled (filled : Filled f m buf pos t) (i : Nat) {j : Nat} (below : j < name_length f m fs buf i pos) :
    t.mem (f (entry_addr fs i+BitVec.ofNat 32 j)) ≠ 0#8 := by
  rw [← strlen_filled filled i] at below
  exact strlen_nonzero below

/-- A round of the loop writes a name and a newline, or ends the loop. -/
theorem fs_list_from_round {left i : Nat} (filled : Filled f m buf pos t) (more : pos+1 < buf_size.toNat)
    (room : pos+name_length f m fs buf i pos+1 < 2^32) :
    (pos+name_length f m fs buf i pos+1 < buf_size.toNat ∧
      ∃ t', Filled f m buf (pos+name_length f m fs buf i pos+1) t' ∧
        fs_list_from (fun _ => f) fs buf buf_size (left+1) i (BitVec.ofNat 32 pos) t =
          fs_list_from (fun _ => f) fs buf buf_size left (i+1) (BitVec.ofNat 32 (pos+name_length f m fs buf i pos+1)) t') ∨
    (¬ pos+name_length f m fs buf i pos+1 < buf_size.toNat ∧
      fs_list_from (fun _ => f) fs buf buf_size (left+1) i (BitVec.ofNat 32 pos) t = (BitVec.ofNat 32 pos,t)) := by
  have length : (strlen (seen (fun _ => f) t.mem) (entry_addr fs i)).toNat = name_length f m fs buf i pos :=
    strlen_filled filled i
  have nonzero : ∀ j < name_length f m fs buf i pos, t.mem (f (entry_addr fs i+BitVec.ofNat 32 j)) ≠ 0#8 := fun j =>
    nonzero_filled filled i
  have bound := buf_size.isLt
  rw [fs_list_from,if_pos (by bv_omega)]
  simp only []
  generalize strlen (seen (fun _ => f) t.mem) (entry_addr fs i) = nlen at length ⊢
  rw [← length] at room nonzero ⊢
  by_cases fits : pos+nlen.toNat+1 < buf_size.toNat
  · have next : BitVec.ofNat 32 pos+nlen+1#32 = BitVec.ofNat 32 (pos+nlen.toNat+1) := by bv_omega
    have place : buf+(BitVec.ofNat 32 pos+nlen) = buf+BitVec.ofNat 32 (pos+nlen.toNat) := by bv_omega
    rw [if_neg (by bv_omega),next,place]
    exact .inl ⟨fits,_,filled_put (filled_copy filled nonzero) (by decide),rfl⟩
  · rw [if_pos (by bv_omega)]
    exact .inr ⟨fits,rfl⟩

/-- The listing ends there: so many names fit, and no more. -/
def Ends (f : Word → Word) (m : Memory) (fs : FsInstance) (buf buf_size : Word) (files last : Nat) : Prop :=
  ∃ k ≤ files, position f m fs buf buf_size k = some last ∧ (k < files → position f m fs buf buf_size (k+1) = none)

/-- With room for every name the loop stops inside the buffer. -/
theorem fs_list_from_roomy {files left i : Nat} (roomy : Roomy f m fs buf buf_size files) (positive : 0 < buf_size.toNat)
    (rest : i+left = files) (here : position f m fs buf buf_size i = some pos) (filled : Filled f m buf pos t) :
    ∃ last t', fs_list_from (fun _ => f) fs buf buf_size left i (BitVec.ofNat 32 pos) t = (BitVec.ofNat 32 last,t') ∧
      Ends f m fs buf buf_size files last ∧ Filled f m buf last t' := by
  have bound := position_lt positive here
  induction left generalizing i pos t with
  | zero => exact ⟨pos,t,rfl,⟨i,by omega,here,by omega⟩,filled⟩
  | succ left ih =>
    by_cases more : pos+1 < buf_size.toNat
    · rcases fs_list_from_round filled more (roomy i (by omega) pos here more) with ⟨fits,t',filled',next⟩ | ⟨long,stops⟩
      · rw [next]
        exact ih (by omega) ((position_next here).trans (if_pos fits)) filled' fits
      · exact ⟨pos,t,stops,⟨i,by omega,here,fun _ => (position_next here).trans (if_neg long)⟩,filled⟩
    · refine ⟨pos,t,fs_list_from_full bound more,⟨i,by omega,here,fun _ => ?_⟩,filled⟩
      exact (position_next here).trans (if_neg (by omega))

theorem puts_stored {x : Access} {u : Touched} (puts : Puts x t u) {a : Word} (before : a ∈ t.stored) : a ∈ u.stored := by
  induction puts with
  | refl => exact before
  | put _ _ _ ih => exact List.mem_cons_of_mem _ ih

/-- A name that wraps around is stored all over the address space. -/
theorem fs_list_from_wraps {left i k last : Nat} (here : position f m fs buf buf_size i = some pos)
    (filled : Filled f m buf pos t) (earlier : i ≤ k) (inside : k < i+left)
    (later : position f m fs buf buf_size k = some last) (more : last+1 < buf_size.toNat)
    (long : 2^32 ≤ last+name_length f m fs buf k last+1) {n : Nat} (low : n < 2^32) :
    buf+BitVec.ofNat 32 n ∈ (fs_list_from (fun _ => f) fs buf buf_size left i (BitVec.ofNat 32 pos) t).2.stored := by
  induction left generalizing i pos t with
  | zero => omega
  | succ left ih =>
    have bound := buf_size.isLt
    by_cases now : i = k
    · subst now
      have same : last = pos := Option.some.inj (later.symm.trans here)
      rw [same] at more long
      have length : (strlen (seen (fun _ => f) t.mem) (entry_addr fs i)).toNat = name_length f m fs buf i pos :=
        strlen_filled filled i
      have nonzero : ∀ j < name_length f m fs buf i pos, t.mem (f (entry_addr fs i+BitVec.ofNat 32 j)) ≠ 0#8 := fun j =>
        nonzero_filled filled i
      rw [fs_list_from,if_pos (by bv_omega)]
      simp only []
      generalize strlen (seen (fun _ => f) t.mem) (entry_addr fs i) = nlen at length ⊢
      rw [← length] at long nonzero
      have place : buf+(BitVec.ofNat 32 pos+nlen) = buf+BitVec.ofNat 32 (pos+nlen.toNat) := by bv_omega
      rw [if_neg (by bv_omega),place]
      refine puts_stored (fs_list_from_puts ..) ?_
      exact ((filled_put (filled_copy filled nonzero) (by decide)).stored _).mpr ⟨n,by omega,rfl⟩
    · obtain ⟨next,_,there⟩ := position_before (show i+1 ≤ k by omega) later
      have fits : pos+name_length f m fs buf i pos+1 < buf_size.toNat := by
        rw [position_next here] at there
        by_contra tooLong
        rw [if_neg tooLong] at there
        cases there
      have room : pos+name_length f m fs buf i pos+1 < 2^32 := by omega
      rcases fs_list_from_round filled (show pos+1 < buf_size.toNat by omega) room with ⟨_,t',filled',goes⟩ | ⟨stops,_⟩
      · rw [goes]
        exact ih ((position_next here).trans (if_pos fits)) filled' (by omega) (by omega)
      · exact absurd fits stops

end Listing

/-! ### Lists of files -/

section Files
variable {f : Word → Word} {m : Memory} {fs : FsInstance} {buf buf_size : Word}

/-- Before anything is stored. -/
theorem filled_start : Filled f m buf 0 ⟨m,[],[]⟩ := ⟨by simp,by simp⟩

/-- Without a buffer the terminating zero is stored all the same. -/
theorem fs_list_nowhere (x : Access) (t : Touched) (mounted : fs.header ≠ 0#32) :
    fs_list x fs buf 0#32 t = (0#32,t.put x buf 0#8) := by
  have stops : ∀ left, fs_list_from x fs buf 0#32 left 0 0#32 t = (0#32,t) := by
    intro left
    cases left with
    | zero => rfl
    | succ left =>
      rw [fs_list_from,if_pos (by decide)]
      simp only []
      rw [if_pos (BitVec.le_def.mpr (Nat.zero_le _))]
  rw [fs_list,if_neg mounted,stops]
  simp

/-- What `fs_list` returns and stores when there is room for its zero byte and no name
    wraps around. -/
theorem fs_list_ends (mounted : fs.header ≠ 0#32) (positive : 0 < buf_size.toNat)
    (roomy : Roomy f m fs buf buf_size (num_files (seen (fun _ => f) m) fs).toNat) :
    ∃ last, Ends f m fs buf buf_size (num_files (seen (fun _ => f) m) fs).toNat last ∧
      (fs_list (fun _ => f) fs buf buf_size ⟨m,[],[]⟩).1 = BitVec.ofNat 32 last ∧
      ∀ a, a ∈ (fs_list (fun _ => f) fs buf buf_size ⟨m,[],[]⟩).2.stored ↔ ∃ j < last+1, a = buf+BitVec.ofNat 32 j := by
  obtain ⟨last,t,listed,ends,filled⟩ := fs_list_from_roomy roomy positive (Nat.zero_add _) rfl filled_start
  rw [fs_list,if_neg mounted,listed]
  exact ⟨last,ends,rfl,stored_put filled.stored (f := f) 0#8⟩

/-- `fs_list` stays inside the buffer when there is room for its zero byte and no name
    wraps around, and then the bytes it counts have been stored. -/
theorem fs_list_roomy (mounted : fs.header ≠ 0#32) (positive : 0 < buf_size.toNat)
    (roomy : Roomy f m fs buf buf_size (num_files (seen (fun _ => f) m) fs).toNat) :
    (∀ a ∈ (fs_list (fun _ => f) fs buf buf_size ⟨m,[],[]⟩).2.stored, ∃ j < buf_size.toNat, a = buf+BitVec.ofNat 32 j) ∧
      ∀ j < (fs_list (fun _ => f) fs buf buf_size ⟨m,[],[]⟩).1.toNat,
        buf+BitVec.ofNat 32 j ∈ (fs_list (fun _ => f) fs buf buf_size ⟨m,[],[]⟩).2.stored := by
  obtain ⟨last,⟨k,_,here,_⟩,result,stored⟩ := fs_list_ends mounted positive roomy
  have below := position_lt positive here
  have bound := buf_size.isLt
  refine ⟨fun a member => ?_,fun j counted => ?_⟩
  · obtain ⟨j,least,rfl⟩ := (stored a).mp member
    exact ⟨j,by omega,rfl⟩
  · rw [result,BitVec.toNat_ofNat,Nat.mod_eq_of_lt (by omega)] at counted
    exact (stored _).mpr ⟨j,by omega,rfl⟩

theorem fs_list_wraps (mounted : fs.header ≠ 0#32)
    (long : ¬ Roomy f m fs buf buf_size (num_files (seen (fun _ => f) m) fs).toNat) {n : Nat} (low : n < 2^32) :
    buf+BitVec.ofNat 32 n ∈ (fs_list (fun _ => f) fs buf buf_size ⟨m,[],[]⟩).2.stored := by
  simp only [Roomy,not_forall,not_lt] at long
  obtain ⟨k,inside,last,later,more,wraps⟩ := long
  rw [fs_list,if_neg mounted]
  exact List.mem_cons_of_mem _ (fs_list_from_wraps rfl filled_start (Nat.zero_le k) (by rwa [Nat.zero_add]) later more wraps
    low)

end Files

/-! ### The three calls -/

/-- The offsets that the caller's size argument allows: entries of a table, or bytes. -/
def Declares (regs : SyscallRegs) (j : Nat) : Prop :=
  if regs.eax = SYS_GETPROCS then (j : Int) < sizeof_proc_info*regs.ecx.toInt else j < regs.ecx.toNat

/-- The number of bytes that one unit of the result stands for. -/
def unit_size (regs : SyscallRegs) : Nat := if regs.eax = SYS_GETPROCS then sizeof_proc_info else 1

/-- A call stores to the declared buffer only, changes no other memory, and the bytes
    that its result counts have been stored. -/
structure StaysInside (f : Word → Word) (process_start_trampoline : Word) (e : Env) (regs : SyscallRegs) : Prop where
  stores : ∀ a ∈ (syscall_dispatch (fun _ => f) process_start_trampoline e regs).stored,
    ∃ j, Declares regs j ∧ a = regs.ebx+BitVec.ofNat 32 j
  changes : ∀ p, (∀ j, Declares regs j → p ≠ f (regs.ebx+BitVec.ofNat 32 j)) →
    (syscall_dispatch (fun _ => f) process_start_trampoline e regs).env.kernel.phys.mem p = e.kernel.phys.mem p
  counts : ∀ j < unit_size regs*(syscall_dispatch (fun _ => f) process_start_trampoline e regs).eax.toNat,
    regs.ebx+BitVec.ofNat 32 j ∈ (syscall_dispatch (fun _ => f) process_start_trampoline e regs).stored

/-- Memory changes where something is stored. -/
theorem staysInside_of {f : Word → Word} {process_start_trampoline : Word} {e : Env} {regs : SyscallRegs}
    (noSpawn : regs.eax ≠ SYS_SPAWN)
    (stores : ∀ a ∈ (syscall_dispatch (fun _ => f) process_start_trampoline e regs).stored,
      ∃ j, Declares regs j ∧ a = regs.ebx+BitVec.ofNat 32 j)
    (counts : ∀ j < unit_size regs*(syscall_dispatch (fun _ => f) process_start_trampoline e regs).eax.toNat,
      regs.ebx+BitVec.ofNat 32 j ∈ (syscall_dispatch (fun _ => f) process_start_trampoline e regs).stored) :
    StaysInside f process_start_trampoline e regs := by
  refine ⟨stores,?_,counts⟩
  intro p outside
  obtain ⟨t,puts,after,stored⟩ := syscall_puts (fun _ => f) process_start_trampoline e noSpawn
  rw [after]
  let declared : Word → Prop := fun a => ∃ j, Declares regs j ∧ a = regs.ebx+BitVec.ofNat 32 j
  let reached : Word → Prop := fun p => ∃ j, Declares regs j ∧ p = f (regs.ebx+BitVec.ofNat 32 j)
  have leads : ∀ m : Memory, (∀ a, ¬ reached a → m a = e.kernel.phys.mem a) → ∀ v, declared v → reached (f v) := by
    rintro _ _ v ⟨j,inside,rfl⟩
    exact ⟨j,inside,rfl⟩
  rw [stored] at stores
  refine puts_confined leads puts stores p ?_
  rintro ⟨j,inside,here⟩
  exact outside j inside here

theorem stored_putAll (x : Access) (t : Touched) (a : Word) (bytes : List Byte) {i : Nat} (inside : i < bytes.length) :
    a+BitVec.ofNat 32 i ∈ (t.putAll x a bytes).stored := by
  induction bytes generalizing t a i with
  | nil => simp at inside
  | cons b rest ih =>
    cases i with
    | zero =>
      rw [show BitVec.ofNat 32 0 = 0#32 from rfl,BitVec.add_zero]
      exact puts_stored (putAll_puts x (t.put x a b) (a+1#32) rest) List.mem_cons_self
    | succ i =>
      have later := ih (t.put x a b) (a+1#32) (show i < rest.length by simpa using inside)
      rwa [BitVec.add_assoc,← BitVec.ofNat_add,Nat.add_comm 1] at later

/-- The entries counted so far have been stored. -/
def Counted (buf : Word) (done : Nat × Touched) : Prop :=
  ∀ j < sizeof_proc_info*done.1, buf+BitVec.ofNat 32 j ∈ done.2.stored

theorem get_info_round_counts {x : Access} {procs : Slot → Proc} {buf max : Word} {done : Nat × Touched}
    (counted : Counted buf done) (i : Slot) :
    (get_info_round x procs buf max done i).1 ≤ done.1+1 ∧ Counted buf (get_info_round x procs buf max done i) := by
  rw [get_info_round]
  split
  · refine ⟨le_refl _,fun j below => ?_⟩
    by_cases old : j < sizeof_proc_info*done.1
    · exact puts_stored (putAll_puts ..) (counted j old)
    · obtain ⟨n,rfl⟩ : ∃ n, j = sizeof_proc_info*done.1+n := ⟨j-sizeof_proc_info*done.1,by omega⟩
      have inEntry : n < (proc_info (procs i)).length := by
        rw [length_proc_info]
        rw [Nat.mul_add] at below
        omega
      have stored := stored_putAll x done.2 (buf+BitVec.ofNat 32 (sizeof_proc_info*done.1)) _ inEntry
      rwa [BitVec.add_assoc,← BitVec.ofNat_add] at stored
  · exact ⟨by omega,counted⟩

/-- The entries that `process_get_info` counts have been stored. -/
theorem get_info_counts (x : Access) (procs : Slot → Proc) (buf max : Word) (t : Touched) :
    (process_get_info x procs buf max t).1 ≤ MAX_PROCESSES ∧ Counted buf (process_get_info x procs buf max t) := by
  have rounds : ∀ (slots : List Slot) (done : Nat × Touched), Counted buf done →
      (slots.foldl (get_info_round x procs buf max) done).1 ≤ done.1+slots.length ∧
        Counted buf (slots.foldl (get_info_round x procs buf max) done) := by
    intro slots
    induction slots with
    | nil => exact fun done counted => ⟨le_refl _,counted⟩
    | cons i rest ih =>
      intro done counted
      obtain ⟨one,counted'⟩ := get_info_round_counts counted i
      obtain ⟨most,all⟩ := ih _ counted'
      rw [List.foldl_cons,List.length_cons]
      exact ⟨by omega,all⟩
  obtain ⟨most,all⟩ := rounds (List.finRange MAX_PROCESSES) (0,t) (fun j below => absurd below (by simp))
  refine ⟨?_,all⟩
  rw [List.length_finRange,Nat.zero_add] at most
  exact most

section Calls
variable (f : Word → Word) (process_start_trampoline : Word) (e : Env) (ecx ebx : Word)

theorem read_inside : StaysInside f process_start_trampoline e ⟨ecx,ebx,SYS_READ⟩ := by
  have cut : (keyboard_read_line e.line ecx).1.length ≤ ecx.toNat := by
    rw [read_line_length]
    exact Nat.min_le_left ..
  have bound := ecx.isLt
  refine staysInside_of (show SYS_READ ≠ SYS_SPAWN by decide) ?_ ?_
  · intro a member
    rcases mem_putAll member with old | ⟨j,inside,rfl⟩
    · cases old
    · exact ⟨j,lt_of_lt_of_le inside cut,rfl⟩
  · intro j counted
    have length : j < 1*(BitVec.ofNat 32 (keyboard_read_line e.line ecx).1.length).toNat := counted
    rw [Nat.one_mul,BitVec.toNat_ofNat,Nat.mod_eq_of_lt (by omega)] at length
    exact stored_putAll _ _ _ _ length

theorem getprocs_inside : StaysInside f process_start_trampoline e ⟨ecx,ebx,SYS_GETPROCS⟩ := by
  refine staysInside_of (show SYS_GETPROCS ≠ SYS_SPAWN by decide) ?_ ?_
  · intro a member
    rcases process_get_info_within member with old | ⟨j,inside,rfl⟩
    · cases old
    · exact ⟨j,inside,rfl⟩
  · obtain ⟨most,all⟩ := get_info_counts (fun _ => f) e.kernel.procs ebx ecx ⟨e.kernel.phys.mem,[],[]⟩
    intro j counted
    have entries : j < sizeof_proc_info*(BitVec.ofNat 32
      (process_get_info (fun _ => f) e.kernel.procs ebx ecx ⟨e.kernel.phys.mem,[],[]⟩).1).toNat := counted
    rw [BitVec.toNat_ofNat,Nat.mod_eq_of_lt (by simp only [MAX_PROCESSES] at most; omega)] at entries
    exact all j entries

/-- A listing stays inside the buffer when `fs_list` does. -/
theorem listfiles_inside_iff :
    StaysInside f process_start_trampoline e ⟨ecx,ebx,SYS_LISTFILES⟩ ↔
      (∀ a ∈ (fs_list (fun _ => f) e.rootfs ebx ecx ⟨e.kernel.phys.mem,[],[]⟩).2.stored,
        ∃ j < ecx.toNat, a = ebx+BitVec.ofNat 32 j) ∧
      ∀ j < (fs_list (fun _ => f) e.rootfs ebx ecx ⟨e.kernel.phys.mem,[],[]⟩).1.toNat,
        ebx+BitVec.ofNat 32 j ∈ (fs_list (fun _ => f) e.rootfs ebx ecx ⟨e.kernel.phys.mem,[],[]⟩).2.stored := by
  have one : unit_size ⟨ecx,ebx,SYS_LISTFILES⟩ = 1 := rfl
  constructor
  · intro inside
    have counts := inside.counts
    rw [one,Nat.one_mul] at counts
    exact ⟨inside.stores,counts⟩
  · rintro ⟨stores,counts⟩
    refine staysInside_of (show SYS_LISTFILES ≠ SYS_SPAWN by decide) stores ?_
    rw [one,Nat.one_mul]
    exact counts

theorem listfiles_inside :
    StaysInside f process_start_trampoline e ⟨ecx,ebx,SYS_LISTFILES⟩ ↔
      (e.rootfs.header ≠ 0#32 → 0 < ecx.toNat ∧ Roomy f e.kernel.phys.mem e.rootfs ebx ecx
        (num_files (seen (fun _ => f) e.kernel.phys.mem) e.rootfs).toNat) := by
  rw [listfiles_inside_iff]
  by_cases mounted : e.rootfs.header = 0#32
  · rw [fs_list,if_pos mounted]
    exact iff_of_true ⟨by simp,by simp⟩ (fun notMounted => absurd mounted notMounted)
  · constructor
    · rintro ⟨stores,_⟩ _
      constructor
      · by_contra empty
        obtain rfl : ecx = 0#32 := BitVec.eq_of_toNat_eq (by simpa using empty)
        rw [fs_list_nowhere _ _ mounted] at stores
        obtain ⟨j,none,_⟩ := stores ebx List.mem_cons_self
        exact absurd none (by simp)
      · by_contra long
        obtain ⟨j,below,same⟩ := stores _ (fs_list_wraps mounted long (show 2^32-1 < 2^32 by decide))
        have bound := ecx.isLt
        bv_omega
    · intro condition
      obtain ⟨positive,roomy⟩ := condition mounted
      exact fs_list_roomy mounted positive roomy

end Calls

/-- `SYS_READ`, `SYS_GETPROCS` and `SYS_LISTFILES` stay inside the buffer that the caller
    declared exactly when, for a listing of a mounted file system, the buffer is not
    empty and no name wraps around. -/
theorem caller_buffer_respected (f : Word → Word) (process_start_trampoline : Word) (e : Env) {regs : SyscallRegs}
    (call : regs.eax = SYS_READ ∨ regs.eax = SYS_GETPROCS ∨ regs.eax = SYS_LISTFILES) :
    StaysInside f process_start_trampoline e regs ↔
      (regs.eax = SYS_LISTFILES → e.rootfs.header ≠ 0#32 →
        0 < regs.ecx.toNat ∧ Roomy f e.kernel.phys.mem e.rootfs regs.ebx regs.ecx
          (num_files (seen (fun _ => f) e.kernel.phys.mem) e.rootfs).toNat) := by
  obtain ⟨ecx,ebx,eax⟩ := regs
  rcases call with isRead | isGetprocs | isList
  · obtain rfl : eax = SYS_READ := isRead
    exact iff_of_true (read_inside f process_start_trampoline e ecx ebx)
      (fun no => absurd no (show SYS_READ ≠ SYS_LISTFILES by decide))
  · obtain rfl : eax = SYS_GETPROCS := isGetprocs
    exact iff_of_true (getprocs_inside f process_start_trampoline e ecx ebx)
      (fun no => absurd no (show SYS_GETPROCS ≠ SYS_LISTFILES by decide))
  · obtain rfl : eax = SYS_LISTFILES := isList
    rw [listfiles_inside]
    exact ⟨fun condition _ => condition,fun condition => condition rfl⟩

/-- `hello` asks for a listing with room for its own name, the newline and the zero. -/
theorem caller_buffer_respected_pc : ∃ frames k, PfaInit.pc.init 3 = some frames ∧
    scheduler_start (process_create physical 0x100010#32 pcFs helloName (pcKernel frames)).kernel = some k ∧
    name_length (entered k) k.phys.mem pcFs 0x10#32 0 0 = 5 ∧
    StaysInside (entered k) 0x100010#32 ⟨k,pcFs,Keyboard.empty,clean⟩ ⟨7#32,0x10#32,SYS_LISTFILES⟩ := by
  obtain ⟨frames,k,ended,started,_,identity,initrd⟩ := hello_running
  have named : ∀ a, pageOf a = 0x200 → written (entered k) k.phys.mem 0x10#32 0 a = PfaInit.pc.mem a := by
    intro a page
    have here : entered k a = a := by
      rw [entered,identity a (by simp [page])]
      rfl
    rw [written,if_neg (by simp),here,initrd a page]
  have length : name_length (entered k) k.phys.mem pcFs 0x10#32 0 0 = 5 := by
    have inPage : ∀ i ≤ 5, pageOf (entry_addr pcFs (0 : Nat)+BitVec.ofNat 32 i) = 0x200 := by decide
    have name : PfaInit.pc.mem (entry_addr pcFs (0 : Nat)+BitVec.ofNat 32 5) = 0#8 ∧
        ∀ i < 5, PfaInit.pc.mem (entry_addr pcFs (0 : Nat)+BitVec.ofNat 32 i) ≠ 0#8 := by decide +kernel
    refine strlen_eq (by decide) ?_ (fun i before => ?_)
    · rw [named _ (inPage 5 (le_refl 5))]
      exact name.1
    · rw [named _ (inPage i (by omega))]
      exact name.2 i before
  refine ⟨frames,k,ended,started,length,(caller_buffer_respected _ _ _ (.inr (.inr rfl))).mpr (fun _ _ => ⟨by decide,?_⟩)⟩
  intro i _ pos here more
  cases i with
  | zero =>
    obtain rfl : 0 = pos := Option.some.inj here
    rw [length]
    decide
  | succ i =>
    -- The first name fills the buffer.
    obtain ⟨first,before,next⟩ := position_before (show 1 ≤ i+1 by omega) here
    rw [position_next rfl,length] at next
    have six : 6 = first := Option.some.inj next
    have most : pos+1 < 7 := more
    omega

/-- `hello` asks for a listing and declares no room at all: a zero is stored at the
    address it has passed. -/
theorem listing_without_room : ∃ frames k, PfaInit.pc.init 3 = some frames ∧
    scheduler_start (process_create physical 0x100010#32 pcFs helloName (pcKernel frames)).kernel = some k ∧
    (syscall_dispatch (fun _ => entered k) 0x100010#32 ⟨k,pcFs,Keyboard.empty,clean⟩ ⟨0#32,0#32,SYS_LISTFILES⟩).stored =
      [0#32] ∧
    ¬ StaysInside (entered k) 0x100010#32 ⟨k,pcFs,Keyboard.empty,clean⟩ ⟨0#32,0#32,SYS_LISTFILES⟩ := by
  obtain ⟨frames,k,ended,started,_⟩ := hello_running
  have stored : (syscall_dispatch (fun _ => entered k) 0x100010#32 ⟨k,pcFs,Keyboard.empty,clean⟩
      ⟨0#32,0#32,SYS_LISTFILES⟩).stored = [0#32] := by
    change (fs_list (fun _ => entered k) pcFs 0#32 0#32 ⟨k.phys.mem,[],[]⟩).2.stored = [0#32]
    rw [fs_list_nowhere _ _ (by decide)]
    rfl
  refine ⟨frames,k,ended,started,stored,fun inside => ?_⟩
  obtain ⟨j,declared,_⟩ := inside.stores 0#32 (by rw [stored]; exact List.mem_singleton_self _)
  have none : j < 0 := declared
  omega

end SoKernel.CallerBuffers
