import SoKernel.Words

/-!
The read-only file system of `fs.c`: a header, a table of 72-byte entries and
the file data, all read in place from the initrd. A `const char *` argument is
modelled by the string it points to, without its terminating zero.
-/
namespace SoKernel.Fs
open SoKernel.Words
set_option linter.unusedSimpArgs false

def FS_MAGIC : Word := 0x534F4653#32
abbrev FS_MAX_NAME : Nat := 64
/-- `sizeof(struct fs_header)`. -/
def sizeof_fs_header : Word := 8#32
/-- `sizeof(struct fs_file_entry)`: the name and two words. -/
abbrev sizeof_fs_file_entry : Nat := FS_MAX_NAME+4+4

structure FsInstance where
  base_addr : Word
  header : Word
  entries : Word
deriving DecidableEq

/-- `strcmp` of the string at `s1` with a string argument. -/
def strcmp (m : Memory) (s1 : Word) : List Byte → Int
  | [] => (m s1).toNat
  | c :: rest => if m s1 ≠ 0#8 ∧ m s1 = c then strcmp m (s1+1#32) rest else (m s1).toNat-(c.toNat : Int)

/-- The result of `fs_init` and the instance it fills in. -/
def fs_init (m : Memory) (base_addr : Word) : Int × FsInstance :=
  if read32 m base_addr ≠ FS_MAGIC then (-1,⟨base_addr,0#32,0#32⟩)
  else (0,⟨base_addr,base_addr,base_addr+sizeof_fs_header⟩)

/-- The `num_files` field of the header. -/
def num_files (m : Memory) (fs : FsInstance) : Word := read32 m (fs.header+4#32)

def fs_num_files (m : Memory) (fs : FsInstance) : Int := if fs.header = 0#32 then 0 else (num_files m fs).toInt

/-- The address of `fs->entries[index]`. -/
def entry_addr (fs : FsInstance) (index : Int) : Word := fs.entries+BitVec.ofInt 32 (sizeof_fs_file_entry*index)

/-- The search of `fs_find` over the `left` entries from `i` on. -/
def fs_find_from (m : Memory) (fs : FsInstance) (name : List Byte) : Nat → Nat → Int
  | 0, _ => -1
  | left+1, i =>
    if strcmp m (entry_addr fs i) name = 0 then (BitVec.ofNat 32 i).toInt
    else fs_find_from m fs name left (i+1)

def fs_find (m : Memory) (fs : FsInstance) (name : List Byte) : Int :=
  if fs.header = 0#32 then -1 else fs_find_from m fs name (num_files m fs).toNat 0

/-- The `offset` field of an entry. -/
def entry_offset (m : Memory) (fs : FsInstance) (index : Int) : Word :=
  read32 m (entry_addr fs index+BitVec.ofNat 32 FS_MAX_NAME)

def fs_file_data (m : Memory) (fs : FsInstance) (index : Int) : Word := fs.base_addr+entry_offset m fs index

def fs_file_size (m : Memory) (fs : FsInstance) (index : Int) : Word :=
  read32 m (entry_addr fs index+BitVec.ofNat 32 (FS_MAX_NAME+4))

/-! ### Searching -/

/-- A string argument has no zero byte. -/
def Text (s : List Byte) : Prop := ∀ c ∈ s, c ≠ 0#8

/-- `strcmp` finds a stored name equal to itself and to no other string. -/
theorem strcmp_zero {m : Memory} {a : Word} {name s : List Byte} (stored : Holds m a (name++[0#8])) (text : Text name)
    (argument : Text s) : strcmp m a s = 0 ↔ s = name := by
  induction name generalizing a s with
  | nil =>
    have here : m a = 0#8 := by simpa using stored 0 0#8 rfl
    cases s with
    | nil => simp [strcmp,here]
    | cons c rest =>
      have nonzero : c ≠ 0#8 := argument c (by simp)
      simpa [strcmp,here] using fun zero : c.toNat = 0 => nonzero (BitVec.eq_of_toNat_eq (by simpa using zero))
  | cons b name ih =>
    have here : m a = b := by simpa using stored 0 b rfl
    have nonzero : b ≠ 0#8 := text b (by simp)
    have later : Holds m (a+1#32) (name++[0#8]) :=
      (holds_append.mp (show Holds m a ([b]++(name++[0#8])) from stored)).2
    cases s with
    | nil => simpa [strcmp,here] using fun zero : b.toNat = 0 => nonzero (BitVec.eq_of_toNat_eq (by simpa using zero))
    | cons c rest =>
      by_cases same : b = c
      · subst same
        have tail := ih later (fun d inside => text d (by simp [inside])) (s := rest)
          (fun d inside => argument d (by simp [inside]))
        rw [strcmp,if_pos ⟨by rwa [here],here⟩,tail]
        simp
      · have apart : (b.toNat : Int)-c.toNat ≠ 0 := fun equal => same (BitVec.eq_of_toNat_eq (by omega))
        simp only [strcmp,here,same,and_false,if_false,apart,false_iff,List.cons.injEq,not_and]
        exact fun equal => absurd equal.symm same

/-- The search stops at the first entry whose name is equal. -/
theorem fs_find_from_first {m : Memory} {fs : FsInstance} {name : List Byte} {left i j : Nat}
    (inside : j < i+left) (from_i : i ≤ j) (found : strcmp m (entry_addr fs j) name = 0)
    (first : ∀ k, i ≤ k → k < j → strcmp m (entry_addr fs k) name ≠ 0) :
    fs_find_from m fs name left i = (BitVec.ofNat 32 j).toInt := by
  induction left generalizing i with
  | zero => omega
  | succ left ih =>
    by_cases here : i = j
    · subst here
      rw [fs_find_from,if_pos found]
    · rw [fs_find_from,if_neg (first i (by omega) (by omega))]
      exact ih (by omega) (by omega) (fun k low high => first k (by omega) high)

theorem fs_find_from_none {m : Memory} {fs : FsInstance} {name : List Byte} {left i : Nat}
    (missing : ∀ k, i ≤ k → k < i+left → strcmp m (entry_addr fs k) name ≠ 0) :
    fs_find_from m fs name left i = -1 := by
  induction left generalizing i with
  | zero => rfl
  | succ left ih =>
    rw [fs_find_from,if_neg (missing i (by omega) (by omega))]
    exact ih (fun k low high => missing k (by omega) (by omega))

/-! ### What a search reads -/

section Reads
variable {m n : Memory} {fs : FsInstance} {name : List Byte}

theorem strcmp_congr {a : Word} (same : ∀ j ≤ name.length, m (a+BitVec.ofNat 32 j) = n (a+BitVec.ofNat 32 j)) :
    strcmp m a name = strcmp n a name := by
  induction name generalizing a with
  | nil =>
    have here : m a = n a := by simpa using same 0 (le_refl _)
    rw [strcmp,strcmp,here]
  | cons c rest ih =>
    have here : m a = n a := by simpa using same 0 (Nat.zero_le _)
    have later : strcmp m (a+1#32) rest = strcmp n (a+1#32) rest := by
      refine ih (fun j inside => ?_)
      have next := same (j+1) (by rw [List.length_cons]; omega)
      rwa [Nat.add_comm,BitVec.ofNat_add,← BitVec.add_assoc] at next
    rw [strcmp,strcmp,here,later]

theorem fs_find_from_congr {left i : Nat} (same : ∀ k, i ≤ k → k < i+left → ∀ j ≤ name.length,
    m (entry_addr fs k+BitVec.ofNat 32 j) = n (entry_addr fs k+BitVec.ofNat 32 j)) :
    fs_find_from m fs name left i = fs_find_from n fs name left i := by
  induction left generalizing i with
  | zero => rfl
  | succ left ih =>
    rw [fs_find_from,fs_find_from,strcmp_congr (same i (le_refl _) (by omega)),
      ih (fun k low high => same k (by omega) (by omega))]

/-- `fs_find` reads the number of files and the names. -/
theorem fs_find_congr (count : num_files m fs = num_files n fs)
    (same : ∀ k < (num_files m fs).toNat, ∀ j ≤ name.length,
      m (entry_addr fs k+BitVec.ofNat 32 j) = n (entry_addr fs k+BitVec.ofNat 32 j)) :
    fs_find m fs name = fs_find n fs name := by
  rw [fs_find,fs_find,← count,fs_find_from_congr (fun k _ high => same k (by omega))]

end Reads

end SoKernel.Fs
