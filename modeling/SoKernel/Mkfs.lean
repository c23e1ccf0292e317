import SoKernel.Fs

/-!
The image that `mkfs.py` writes and `fs.c` reads. The Python builder computes
the offsets of the files in one loop and writes the padded contents in another;
the C side lays its structures over the result. Python integers are natural
numbers here, and what raises an exception there is an error.
-/
namespace SoKernel.Mkfs
open SoKernel.Words SoKernel.Fs
set_option linter.unusedSimpArgs false

abbrev MAX_NAME : Nat := 64
abbrev HEADER_SIZE : Nat := 8
abbrev ENTRY_SIZE : Nat := MAX_NAME+4+4

/-- Why no image is written. -/
inductive BuildError where
  | no_files
  | not_ascii
  | struct_error
deriving DecidableEq

/-- A name in the input directory, with the content of a regular file. -/
structure DirEntry where
  name : List Char
  content : Option (List Byte)

structure SourceFile where
  name : List Char
  data : List Byte
deriving DecidableEq

/-- What passes `os.path.isfile`. -/
def regular (input_dir : List DirEntry) : List SourceFile :=
  input_dir.filterMap fun e => e.content.map (SourceFile.mk e.name)

/-- The files in the order of `filenames`: Python orders strings by their code points. -/
def sorted (input_dir : List DirEntry) : List SourceFile :=
  (regular input_dir).mergeSort fun a b => decide (a.name ≤ b.name)

/-- `(n + 3) & ~3`. -/
def align4 (n : Nat) : Nat := (n+3)/4*4

/-- `fname.encode("ascii")`. -/
def encode_ascii : List Char → Except BuildError (List Byte)
  | [] => .ok []
  | c :: rest => do
    if c.toNat < 128 then
      let later ← encode_ascii rest
      return BitVec.ofNat 8 c.toNat :: later
    else throw .not_ascii

/-- The name field of an entry: cut to 63 bytes and filled up with zeros. -/
def name_bytes (encoded : List Byte) : List Byte :=
  let cut := encoded.take (MAX_NAME-1)
  cut++List.replicate (MAX_NAME-cut.length) 0#8

/-- A tuple of the list `entries`. -/
structure Entry where
  name_bytes : List Byte
  offset : Nat
  size : Nat

/-- The first loop of `build_fs`, from a value of `current_offset` on. -/
def make_entries : Nat → List SourceFile → Except BuildError (List Entry)
  | _, [] => .ok []
  | current_offset, f :: rest => do
    let encoded ← encode_ascii f.name
    let later ← make_entries (align4 (current_offset+f.data.length)) rest
    return ⟨name_bytes encoded,current_offset,f.data.length⟩ :: later

/-- `struct.pack("<II", a, b)`. -/
def pack_II (a b : Nat) : Except BuildError (List Byte) :=
  if a < 2^32 ∧ b < 2^32 then .ok (little (BitVec.ofNat 32 a)++little (BitVec.ofNat 32 b)) else .error .struct_error

/-- The second loop of `build_fs`. -/
def write_entries : List Entry → Except BuildError (List Byte)
  | [] => .ok []
  | e :: rest => do
    let fields ← pack_II e.offset e.size
    let later ← write_entries rest
    return e.name_bytes++fields++later

/-- A file's content with its padding. -/
def padded (f : SourceFile) : List Byte := f.data++List.replicate (align4 f.data.length-f.data.length) 0#8
/-- The third loop of `build_fs`. -/
def write_data (files : List SourceFile) : List Byte := files.flatMap padded

/-- The bytes of the image for a directory. -/
def build_fs (input_dir : List DirEntry) : Except BuildError (List Byte) := do
  let files := sorted input_dir
  if files = [] then throw .no_files
  let num_files := files.length
  let data_start := HEADER_SIZE+ENTRY_SIZE*num_files
  let entries ← make_entries data_start files
  let header ← pack_II FS_MAGIC.toNat num_files
  let table ← write_entries entries
  return header++table++write_data files

/-! ### Directories -/

theorem mem_sorted {input_dir : List DirEntry} {f : SourceFile} : f ∈ sorted input_dir ↔ f ∈ regular input_dir :=
  List.mem_mergeSort

theorem sorted_perm (input_dir : List DirEntry) : (sorted input_dir).Perm (regular input_dir) :=
  List.mergeSort_perm _ _

private theorem regular_names (input_dir : List DirEntry) :
    ((regular input_dir).map SourceFile.name).Sublist (input_dir.map DirEntry.name) := by
  induction input_dir with
  | nil => simp [regular]
  | cons e rest ih =>
    cases content : e.content with
    | none =>
      simp only [regular,List.filterMap_cons,content,Option.map_none,List.map_cons]
      exact List.Sublist.cons _ ih
    | some data =>
      simp only [regular,List.filterMap_cons,content,Option.map_some,List.map_cons]
      exact List.Sublist.cons_cons _ ih

/-- Distinct names come out in strictly increasing order. -/
theorem sorted_increasing {input_dir : List DirEntry} (distinct : (input_dir.map DirEntry.name).Nodup) :
    (sorted input_dir).Pairwise (fun a b => a.name < b.name) := by
  have ordered : (sorted input_dir).Pairwise (fun a b => a.name ≤ b.name) := by
    have := @List.pairwise_mergeSort _ (fun a b : SourceFile => decide (a.name ≤ b.name))
      (by simpa using fun a b c : SourceFile => le_trans) (by simpa using fun a b : SourceFile => le_total a.name b.name)
      (regular input_dir)
    simpa [sorted] using this
  have different : ((sorted input_dir).map SourceFile.name).Nodup :=
    ((sorted_perm input_dir).map SourceFile.name).nodup_iff.mpr (distinct.sublist (regular_names input_dir))
  rw [List.Nodup,List.pairwise_map] at different
  exact (ordered.and different).imp fun both => lt_of_le_of_ne both.1 both.2

/-! ### The parts of an image -/

/-- The bytes of an ASCII string. -/
def ascii (name : List Char) : List Byte := name.map fun c => BitVec.ofNat 8 c.toNat
/-- The name under which `fs_find` knows a file. -/
def cut_name (f : SourceFile) : List Byte := (ascii f.name).take (MAX_NAME-1)
/-- What a file name of ASCII characters may consist of. -/
def Ascii (name : List Char) : Prop := ∀ c ∈ name, 0 < c.toNat ∧ c.toNat < 128

instance (name : List Char) : Decidable (Ascii name) :=
  inferInstanceAs (Decidable (∀ c ∈ name, 0 < c.toNat ∧ c.toNat < 128))

theorem encode_ascii_ok {name : List Char} (ok : Ascii name) : encode_ascii name = .ok (ascii name) := by
  induction name with
  | nil => rfl
  | cons c rest ih =>
    rw [encode_ascii,if_pos (ok c (by simp)).2,ih (fun d inside => ok d (by simp [inside]))]
    rfl

theorem cut_name_text {f : SourceFile} (ok : Ascii f.name) : Text (cut_name f) := by
  intro b inside
  obtain ⟨c,within,rfl⟩ := List.mem_map.mp (List.mem_of_mem_take inside)
  obtain ⟨positive,small⟩ := ok c within
  intro zero
  have := congrArg BitVec.toNat zero
  simp only [BitVec.toNat_ofNat] at this
  omega

theorem cut_name_length (f : SourceFile) : (cut_name f).length ≤ MAX_NAME-1 := by
  simp only [cut_name,List.length_take]
  omega

theorem name_bytes_length (encoded : List Byte) : (name_bytes encoded).length = MAX_NAME := by
  simp only [name_bytes,List.length_append,List.length_take,List.length_replicate,MAX_NAME]
  omega

theorem padded_length (f : SourceFile) : (padded f).length = align4 f.data.length := by
  simp only [padded,List.length_append,List.length_replicate,align4]
  omega

/-- The entry of a file, given where its data go. -/
def entry_of (offset : Nat) (f : SourceFile) : Entry := ⟨name_bytes (ascii f.name),offset,f.data.length⟩

/-- The entries the first loop makes, one after the other. -/
def entries_from : Nat → List SourceFile → List Entry
  | _, [] => []
  | current_offset, f :: rest => entry_of current_offset f :: entries_from (current_offset+(padded f).length) rest

/-- The running offset stays a multiple of four, so that it counts the bytes the third loop writes. -/
theorem make_entries_ok {current_offset : Nat} {files : List SourceFile} (aligned : current_offset % 4 = 0)
    (ok : ∀ f ∈ files, Ascii f.name) : make_entries current_offset files = .ok (entries_from current_offset files) := by
  induction files generalizing current_offset with
  | nil => rfl
  | cons f rest ih =>
    have next : align4 (current_offset+f.data.length) = current_offset+(padded f).length := by
      rw [padded_length]
      simp only [align4]
      omega
    have stays : (current_offset+(padded f).length) % 4 = 0 := by
      rw [padded_length]
      simp only [align4]
      omega
    rw [make_entries,encode_ascii_ok (ok f (by simp)),next]
    simp only [bind,Except.bind]
    rw [ih stays (fun g inside => ok g (by simp [inside]))]
    rfl

theorem entries_from_length (current_offset : Nat) (files : List SourceFile) :
    (entries_from current_offset files).length = files.length := by
  induction files generalizing current_offset with
  | nil => rfl
  | cons f rest ih => simp [entries_from,ih]

theorem entries_from_get {current_offset : Nat} {files : List SourceFile} {i : Nat} {f : SourceFile}
    (here : files[i]? = some f) :
    (entries_from current_offset files)[i]? =
      some (entry_of (current_offset+(write_data (files.take i)).length) f) := by
  induction files generalizing current_offset i with
  | nil => simp at here
  | cons g rest ih =>
    cases i with
    | zero =>
      obtain rfl : g = f := by simpa using here
      simp [entries_from,write_data]
    | succ i =>
      rw [entries_from,List.getElem?_cons_succ,ih (by simpa using here)]
      simp only [write_data,List.take_succ_cons,List.flatMap_cons,List.length_append,Nat.add_assoc]

/-- The bytes of an entry. -/
def entry_bytes (e : Entry) : List Byte :=
  e.name_bytes++(little (BitVec.ofNat 32 e.offset)++little (BitVec.ofNat 32 e.size))

theorem entry_of_length (offset : Nat) (f : SourceFile) : (entry_bytes (entry_of offset f)).length = ENTRY_SIZE := by
  simp [entry_bytes,entry_of,name_bytes_length]

theorem write_entries_ok {entries : List Entry} (small : ∀ e ∈ entries, e.offset < 2^32 ∧ e.size < 2^32) :
    write_entries entries = .ok (entries.flatMap entry_bytes) := by
  induction entries with
  | nil => rfl
  | cons e rest ih =>
    rw [write_entries,pack_II,if_pos (small e (by simp)),ih (fun f inside => small f (by simp [inside]))]
    simp only [bind,Except.bind,pure,Except.pure,List.flatMap_cons,entry_bytes]

/-- The number of bytes in the image of some files. -/
def image_size (files : List SourceFile) : Nat := HEADER_SIZE+ENTRY_SIZE*files.length+(write_data files).length
/-- Where the data of the first file start. -/
def data_start (files : List SourceFile) : Nat := HEADER_SIZE+ENTRY_SIZE*files.length
/-- Where the data of a file start. -/
def data_offset (files : List SourceFile) (i : Nat) : Nat := data_start files+(write_data (files.take i)).length

/-- The image of some files. -/
def image (files : List SourceFile) : List Byte :=
  little FS_MAGIC++(little (BitVec.ofNat 32 files.length)++
    ((entries_from (data_start files) files).flatMap entry_bytes++write_data files))

/-- A file's data end before the data of every later file start. -/
theorem data_offset_next {files : List SourceFile} {i j : Nat} {f : SourceFile} (here : files[i]? = some f)
    (later : i < j) : data_offset files i+f.data.length ≤ data_offset files j := by
  obtain ⟨inside,rfl⟩ := List.getElem?_eq_some_iff.mp here
  have upTo : (write_data (files.take (i+1))).length ≤ (write_data (files.take j)).length := by
    obtain ⟨more,same⟩ := List.take_prefix_take_left (l := files) (show i+1 ≤ j from later)
    rw [← same]
    simp only [write_data,List.flatMap_append,List.length_append]
    omega
  have here : (write_data (files.take (i+1))).length =
      (write_data (files.take i)).length+(padded files[i]).length := by
    rw [List.take_succ_eq_append_getElem inside]
    simp only [write_data,List.flatMap_append,List.length_append,List.flatMap_cons,List.flatMap_nil,List.append_nil]
  have contained : files[i].data.length ≤ (padded files[i]).length := by simp [padded]
  simp only [data_offset]
  omega

theorem data_offset_end {files : List SourceFile} {i : Nat} {f : SourceFile} (here : files[i]? = some f) :
    data_offset files i+f.data.length ≤ image_size files := by
  obtain ⟨inside,_⟩ := List.getElem?_eq_some_iff.mp here
  have whole : data_offset files files.length = image_size files := by
    simp only [data_offset,List.take_length,image_size,data_start]
  exact whole ▸ data_offset_next here inside

theorem entries_from_size {current_offset : Nat} {files : List SourceFile} {e : Entry}
    (inside : e ∈ entries_from current_offset files) : (entry_bytes e).length = ENTRY_SIZE := by
  induction files generalizing current_offset with
  | nil => simp [entries_from] at inside
  | cons f rest ih =>
    rcases List.mem_cons.mp inside with rfl | later
    · exact entry_of_length current_offset f
    · exact ih later

private theorem blocks_length {α : Type*} {k : Nat} {bytes : α → List Byte} {xs : List α}
    (same : ∀ x ∈ xs, (bytes x).length = k) : (xs.flatMap bytes).length = k*xs.length := by
  induction xs with
  | nil => rfl
  | cons x xs ih =>
    rw [List.flatMap_cons,List.length_append,same x (by simp),ih (fun y inside => same y (by simp [inside])),
      List.length_cons,Nat.mul_succ,Nat.add_comm]

/-- The length of the first `i` entries of the table. -/
theorem table_length {current_offset : Nat} {files : List SourceFile} {i : Nat} (inside : i ≤ files.length) :
    (((entries_from current_offset files).take i).flatMap entry_bytes).length = ENTRY_SIZE*i := by
  rw [blocks_length (fun e within => entries_from_size (List.mem_of_mem_take within)),List.length_take,
    entries_from_length,Nat.min_eq_left inside]

theorem entries_flatMap_length (current_offset : Nat) (files : List SourceFile) :
    ((entries_from current_offset files).flatMap entry_bytes).length = ENTRY_SIZE*files.length := by
  rw [blocks_length (fun e within => entries_from_size within),entries_from_length]

theorem image_length (files : List SourceFile) : (image files).length = image_size files := by
  simp only [image,List.length_append,entries_flatMap_length,little_length,image_size,HEADER_SIZE]
  omega

/-- Every entry of an image below 4 GiB can be packed. -/
theorem build_fs_ok {input_dir : List DirEntry} (some_file : regular input_dir ≠ [])
    (ok : ∀ f ∈ regular input_dir, Ascii f.name) (small : image_size (sorted input_dir) < 2^32) :
    build_fs input_dir = .ok (image (sorted input_dir)) := by
  have nonempty : sorted input_dir ≠ [] := fun none =>
    some_file (List.Perm.nil_eq (none ▸ sorted_perm input_dir)).symm
  have aligned : (HEADER_SIZE+ENTRY_SIZE*(sorted input_dir).length) % 4 = 0 := by
    simp only [HEADER_SIZE,ENTRY_SIZE,MAX_NAME]
    omega
  have header : FS_MAGIC.toNat < 2^32 ∧ (sorted input_dir).length < 2^32 := by
    refine ⟨FS_MAGIC.isLt,?_⟩
    simp only [image_size,HEADER_SIZE,ENTRY_SIZE,MAX_NAME] at small
    omega
  have fields : ∀ e ∈ entries_from (HEADER_SIZE+ENTRY_SIZE*(sorted input_dir).length) (sorted input_dir),
      e.offset < 2^32 ∧ e.size < 2^32 := by
    intro e inside
    obtain ⟨i,here⟩ := List.mem_iff_getElem?.mp inside
    obtain ⟨within,_⟩ := List.getElem?_eq_some_iff.mp here
    rw [entries_from_length] at within
    have file := List.getElem?_eq_getElem within
    have bound := data_offset_end file
    rw [entries_from_get file] at here
    obtain rfl := Option.some.inj here
    simp only [data_offset,data_start] at bound
    simp only [entry_of]
    omega
  simp only [build_fs,if_neg nonempty,make_entries_ok aligned (fun f inside => ok f (mem_sorted.mp inside)),pack_II,
    if_pos header,write_entries_ok fields,bind,Except.bind,pure,Except.pure]
  simp only [image,data_start,List.append_assoc,BitVec.ofNat_toNat,BitVec.setWidth_eq]

section Written
variable {ε α β : Type} {files : List SourceFile}

theorem bind_ok {x : Except ε α} {g : α → Except ε β} {b : β} (ok : x >>= g = .ok b) : ∃ a, x = .ok a ∧ g a = .ok b := by
  cases x with
  | error e => cases ok
  | ok a => exact ⟨a,rfl,ok⟩

theorem encode_ascii_inv {name : List Char} {encoded : List Byte} (ok : encode_ascii name = .ok encoded) :
    (∀ c ∈ name, c.toNat < 128) ∧ encoded = ascii name := by
  induction name generalizing encoded with
  | nil =>
    cases ok
    exact ⟨by simp,rfl⟩
  | cons c rest ih =>
    rw [encode_ascii] at ok
    split at ok
    · rename_i small
      obtain ⟨later,read,done⟩ := bind_ok ok
      obtain ⟨all,rfl⟩ := ih read
      cases done
      exact ⟨by simpa using ⟨small,all⟩,rfl⟩
    · cases ok

theorem make_entries_inv {current_offset : Nat} {entries : List Entry} (aligned : current_offset % 4 = 0)
    (ok : make_entries current_offset files = .ok entries) :
    (∀ f ∈ files, ∀ c ∈ f.name, c.toNat < 128) ∧ entries = entries_from current_offset files := by
  induction files generalizing current_offset entries with
  | nil =>
    cases ok
    exact ⟨by simp,rfl⟩
  | cons f rest ih =>
    have next : align4 (current_offset+f.data.length) = current_offset+(padded f).length := by
      rw [padded_length]
      simp only [align4]
      omega
    rw [make_entries,next] at ok
    obtain ⟨encoded,name,ok⟩ := bind_ok ok
    obtain ⟨later,read,done⟩ := bind_ok ok
    obtain ⟨small,rfl⟩ := encode_ascii_inv name
    obtain ⟨all,rfl⟩ := ih (by rw [padded_length]; simp only [align4]; omega) read
    cases done
    refine ⟨fun g member => ?_,rfl⟩
    rcases List.mem_cons.mp member with rfl | old
    · exact small
    · exact all g old

theorem write_entries_inv {entries : List Entry} {table : List Byte} (ok : write_entries entries = .ok table) :
    (∀ e ∈ entries, e.offset < 2^32 ∧ e.size < 2^32) ∧ table = entries.flatMap entry_bytes := by
  induction entries generalizing table with
  | nil =>
    cases ok
    exact ⟨by simp,rfl⟩
  | cons e rest ih =>
    rw [write_entries] at ok
    obtain ⟨fields,packed,ok⟩ := bind_ok ok
    obtain ⟨later,read,done⟩ := bind_ok ok
    obtain ⟨all,rfl⟩ := ih read
    rw [pack_II] at packed
    split at packed
    · rename_i small
      cases packed
      cases done
      exact ⟨by simpa using ⟨small,all⟩,rfl⟩
    · cases packed

/-- Whatever is written is the image of the sorted files, with ASCII names and a table
    that ends below 4 GiB. -/
theorem build_fs_inv {input_dir : List DirEntry} {bytes : List Byte} (built : build_fs input_dir = .ok bytes) :
    bytes = image (sorted input_dir) ∧ sorted input_dir ≠ [] ∧ data_start (sorted input_dir) < 2^32 ∧
      ∀ f ∈ sorted input_dir, ∀ c ∈ f.name, c.toNat < 128 := by
  have aligned : data_start (sorted input_dir) % 4 = 0 := by
    simp only [data_start,HEADER_SIZE,ENTRY_SIZE,MAX_NAME]
    omega
  rw [build_fs] at built
  by_cases none : sorted input_dir = []
  · rw [if_pos none] at built
    cases built
  rw [if_neg none] at built
  obtain ⟨entries,made,built⟩ := bind_ok built
  obtain ⟨header,packed,built⟩ := bind_ok built
  obtain ⟨table,wrote,done⟩ := bind_ok built
  obtain ⟨small,rfl⟩ := make_entries_inv aligned made
  obtain ⟨fields,rfl⟩ := write_entries_inv wrote
  rw [pack_II] at packed
  split at packed
  · cases packed
    cases done
    refine ⟨?_,none,?_,small⟩
    · simp only [image,data_start,List.append_assoc,BitVec.ofNat_toNat,BitVec.setWidth_eq]
    · obtain ⟨f,rest,files⟩ := List.exists_cons_of_ne_nil none
      refine (fields (entry_of (data_start (sorted input_dir)) f) ?_).1
      simp only [files,entries_from,data_start,List.mem_cons,true_or]
  · cases packed

end Written

/-! ### Reading an image back -/

/-- The instance for an image that was accepted. -/
def mounted (base : Word) : FsInstance := ⟨base,base,base+sizeof_fs_header⟩

section Loaded
variable {files : List SourceFile} {m : Memory} {base : Word}

theorem init_image (holds : Holds m base (image files)) : fs_init m base = (0,mounted base) := by
  have magic : read32 m base = FS_MAGIC := holds_read32 (holds_append.mp holds).1
  rw [fs_init,if_neg (not_not.mpr magic)]
  rfl

theorem num_files_image (holds : Holds m base (image files)) (few : files.length < 2^32) :
    (num_files m (mounted base)).toNat = files.length := by
  have count := holds_read32 (holds_append.mp (holds_append.mp holds).2).1
  rw [num_files,mounted]
  exact (congrArg BitVec.toNat count).trans (by rw [BitVec.toNat_ofNat,Nat.mod_eq_of_lt few])

/-- The table follows the header, with 72 bytes for each entry. -/
theorem entry_image (holds : Holds m base (image files)) {i : Nat} {f : SourceFile} (here : files[i]? = some f) :
    Holds m (entry_addr (mounted base) i) (entry_bytes (entry_of (data_offset files i) f)) := by
  have table := (holds_append.mp (holds_append.mp (holds_append.mp holds).2).2).1
  have entry := holds_flatMap table (entries_from_get here)
  obtain ⟨inside,_⟩ := List.getElem?_eq_some_iff.mp here
  rw [table_length (by omega)] at entry
  have address : base+BitVec.ofNat 32 4+BitVec.ofNat 32 4+BitVec.ofNat 32 (ENTRY_SIZE*i) = entry_addr (mounted base) i := by
    rw [entry_addr,mounted,sizeof_fs_header,BitVec.add_assoc base,← BitVec.ofNat_add]
    norm_cast
  exact address ▸ entry

theorem name_image (holds : Holds m base (image files)) {i : Nat} {f : SourceFile} (here : files[i]? = some f) :
    Holds m (entry_addr (mounted base) i) (cut_name f++[0#8]) := by
  have name := (holds_append.mp (entry_image holds here)).1
  have short := cut_name_length f
  have zeros : MAX_NAME-(cut_name f).length = (MAX_NAME-1-(cut_name f).length)+1 := by
    simp only [MAX_NAME] at short ⊢
    omega
  have field : name_bytes (ascii f.name) =
      (cut_name f++[0#8])++List.replicate (MAX_NAME-1-(cut_name f).length) 0#8 := by
    rw [name_bytes,← cut_name,zeros,List.replicate_succ,List.append_assoc]
    rfl
  rw [entry_of,field] at name
  exact (holds_append.mp name).1

theorem offset_image (holds : Holds m base (image files)) {i : Nat} {f : SourceFile} (here : files[i]? = some f) :
    entry_offset m (mounted base) i = BitVec.ofNat 32 (data_offset files i) := by
  have fields := (holds_append.mp (entry_image holds here)).2
  rw [entry_of,name_bytes_length] at fields
  exact holds_read32 (holds_append.mp fields).1

theorem size_image (holds : Holds m base (image files)) {i : Nat} {f : SourceFile} (here : files[i]? = some f) :
    fs_file_size m (mounted base) i = BitVec.ofNat 32 f.data.length := by
  have fields := (holds_append.mp (entry_image holds here)).2
  rw [entry_of,name_bytes_length] at fields
  have size := (holds_append.mp fields).2
  rw [little_length,BitVec.add_assoc,← BitVec.ofNat_add] at size
  exact holds_read32 size

theorem data_image (holds : Holds m base (image files)) {i : Nat} {f : SourceFile} (here : files[i]? = some f) :
    Holds m (fs_file_data m (mounted base) i) f.data := by
  have data := (holds_append.mp (holds_append.mp (holds_append.mp holds).2).2).2
  rw [write_data] at data
  have block := holds_flatMap data here
  rw [padded] at block
  have contents := (holds_append.mp block).1
  have address : base+BitVec.ofNat 32 4+BitVec.ofNat 32 4+BitVec.ofNat 32 (ENTRY_SIZE*files.length)+
      BitVec.ofNat 32 ((files.take i).flatMap padded).length = fs_file_data m (mounted base) i := by
    rw [fs_file_data,offset_image holds here,mounted,data_offset,data_start,write_data]
    simp only [BitVec.add_assoc,← BitVec.ofNat_add,HEADER_SIZE]
  rw [little_length,little_length,entries_flatMap_length,address] at contents
  exact contents

/-- Comparing the name of an entry with an argument. -/
theorem strcmp_image (holds : Holds m base (image files)) {i : Nat} {f : SourceFile} (here : files[i]? = some f)
    (ok : Ascii f.name) {s : List Byte} (text : Text s) :
    strcmp m (entry_addr (mounted base) i) s = 0 ↔ s = cut_name f :=
  strcmp_zero (name_image holds here) (cut_name_text ok) text

end Loaded

/-- What the kernel gets from an image of these files at this address. -/
structure RoundTrip (files : List SourceFile) (m : Memory) (base : Word) (fs : FsInstance) : Prop where
  accepted : fs_init m base = (0,fs)
  /-- A cut name leads to the first file that has it. -/
  found : ∀ f ∈ files, ∃ (i : Nat) (first : SourceFile), files[i]? = some first ∧ cut_name first = cut_name f ∧
    (∀ (j : Nat) (other : SourceFile), j < i → files[j]? = some other → cut_name other ≠ cut_name f) ∧
    fs_find m fs (cut_name f) = i ∧ (fs_file_size m fs i).toNat = first.data.length ∧
    Holds m (fs_file_data m fs i) first.data
  missing : ∀ s, Text s → (∀ f ∈ files, s ≠ cut_name f) → fs_find m fs s = -1
  /-- The data lie inside the image and after the table. -/
  inside : ∀ i < files.length, HEADER_SIZE+ENTRY_SIZE*files.length ≤ (entry_offset m fs i).toNat ∧
    (entry_offset m fs i).toNat+(fs_file_size m fs i).toNat ≤ image_size files
  /-- The data of a file end before those of the next one start. -/
  apart : ∀ i j : Nat, i < j → j < files.length →
    (entry_offset m fs i).toNat+(fs_file_size m fs i).toNat ≤ (entry_offset m fs j).toNat

/-- The first file with a given cut name. -/
private theorem first_named {files : List SourceFile} {f : SourceFile} (inside : f ∈ files) :
    ∃ (i : Nat) (first : SourceFile), files[i]? = some first ∧ cut_name first = cut_name f ∧
      ∀ (j : Nat) (other : SourceFile), j < i → files[j]? = some other → cut_name other ≠ cut_name f := by
  classical
  have exist : ∃ i : Nat, ∃ g, files[i]? = some g ∧ cut_name g = cut_name f := by
    obtain ⟨i,here⟩ := List.mem_iff_getElem?.mp inside
    exact ⟨i,f,here,rfl⟩
  obtain ⟨first,here,same⟩ := Nat.find_spec exist
  exact ⟨Nat.find exist,first,here,same,fun j other before there equal => Nat.find_min exist before ⟨other,there,equal⟩⟩

/-- `fs_find` leads to the first file with a cut name. -/
theorem find_image {files : List SourceFile} {m : Memory} {base : Word} (holds : Holds m base (image files))
    (nonzero : base ≠ 0#32) (ok : ∀ f ∈ files, Ascii f.name) (few : files.length < 2^31) {f : SourceFile}
    (inside : f ∈ files) :
    ∃ (i : Nat) (first : SourceFile), files[i]? = some first ∧ cut_name first = cut_name f ∧
      (∀ (j : Nat) (other : SourceFile), j < i → files[j]? = some other → cut_name other ≠ cut_name f) ∧
      fs_find m (mounted base) (cut_name f) = i := by
  obtain ⟨i,first,here,same,least⟩ := first_named inside
  obtain ⟨within,_⟩ := List.getElem?_eq_some_iff.mp here
  have text := cut_name_text (ok f inside)
  have named : strcmp m (entry_addr (mounted base) i) (cut_name f) = 0 :=
    (strcmp_image holds here (ok first (List.mem_of_getElem? here)) text).mpr same.symm
  have others : ∀ k, 0 ≤ k → k < i → strcmp m (entry_addr (mounted base) k) (cut_name f) ≠ 0 := by
    intro k _ before equal
    have there := List.getElem?_eq_getElem (show k < files.length by omega)
    have member := List.mem_of_getElem? there
    exact least k _ before there ((strcmp_image holds there (ok _ member) text).mp equal).symm
  refine ⟨i,first,here,same,least,?_⟩
  have count := num_files_image holds (by omega)
  have index : (BitVec.ofNat 32 i).toNat = i := by rw [BitVec.toNat_ofNat,Nat.mod_eq_of_lt (by omega)]
  rw [fs_find,if_neg (show ¬ (mounted base).header = 0#32 from nonzero),count,
    fs_find_from_first (by omega) (Nat.zero_le i) named others,BitVec.toInt_eq_toNat_of_lt (by omega),index]

theorem image_round_trip {files : List SourceFile} {m : Memory} {base : Word} (holds : Holds m base (image files))
    (nonzero : base ≠ 0#32) (ok : ∀ f ∈ files, Ascii f.name) (few : files.length < 2^31)
    (small : image_size files < 2^32) : RoundTrip files m base (mounted base) := by
  have count := num_files_image holds (by omega)
  have size : ∀ {i : Nat} {f : SourceFile}, files[i]? = some f → (fs_file_size m (mounted base) i).toNat = f.data.length := by
    intro i f here
    have := data_offset_end here
    rw [size_image holds here,BitVec.toNat_ofNat,Nat.mod_eq_of_lt (by omega)]
  have offset : ∀ {i : Nat} {f : SourceFile}, files[i]? = some f →
      (entry_offset m (mounted base) i).toNat = data_offset files i := by
    intro i f here
    have := data_offset_end here
    rw [offset_image holds here,BitVec.toNat_ofNat,Nat.mod_eq_of_lt (by omega)]
  constructor
  case accepted => exact init_image holds
  case found =>
    intro f inside
    obtain ⟨i,first,here,same,least,index⟩ := find_image holds nonzero ok few inside
    exact ⟨i,first,here,same,least,index,size here,data_image holds here⟩
  case missing =>
    intro s text other
    rw [fs_find,if_neg (show ¬ (mounted base).header = 0#32 from nonzero),count]
    apply fs_find_from_none
    intro k _ within equal
    have there := List.getElem?_eq_getElem (show k < files.length by omega)
    have member := List.mem_of_getElem? there
    exact other _ member ((strcmp_image holds there (ok _ member) text).mp equal)
  case inside =>
    intro i within
    have here := List.getElem?_eq_getElem within
    rw [offset here,size here]
    exact ⟨Nat.le_add_right _ _,data_offset_end here⟩
  case apart =>
    intro i j before within
    have here := List.getElem?_eq_getElem (show i < files.length by omega)
    rw [offset here,size here,offset (List.getElem?_eq_getElem within)]
    exact data_offset_next here before

/-- Every directory of files with distinct ASCII names whose image stays below
4 GiB is built, and the kernel finds its files again wherever the image is
loaded except at address 0. Neither the alignment of the address nor a wrap
of the image at the end of the address space matters. -/
theorem sofs_round_trip (input_dir : List DirEntry) (base : Word) (some_file : regular input_dir ≠ [])
    (distinct : (input_dir.map DirEntry.name).Nodup) (ok : ∀ f ∈ regular input_dir, Ascii f.name)
    (few : (regular input_dir).length < 2^31) (small : image_size (sorted input_dir) < 2^32) (nonzero : base ≠ 0#32) :
    ∃ bytes, build_fs input_dir = .ok bytes ∧ bytes.length = image_size (sorted input_dir) ∧
      (sorted input_dir).Perm (regular input_dir) ∧ (sorted input_dir).Pairwise (fun a b => a.name < b.name) ∧
      ∀ m, Holds m base bytes → ∃ fs, RoundTrip (sorted input_dir) m base fs := by
  refine ⟨image (sorted input_dir),build_fs_ok some_file ok small,image_length _,sorted_perm input_dir,
    sorted_increasing distinct,?_⟩
  intro m holds
  have names : ∀ f ∈ sorted input_dir, Ascii f.name := fun f inside => ok f (mem_sorted.mp inside)
  have count : (sorted input_dir).length < 2^31 := by rwa [(sorted_perm input_dir).length_eq]
  exact ⟨mounted base,image_round_trip holds nonzero names count small⟩

/-- Two files and a subdirectory. -/
def sampleDir : List DirEntry := [⟨"b".toList,some [1#8,2#8]⟩,⟨"sub".toList,none⟩,⟨"a".toList,some [3#8]⟩]

theorem sofs_round_trip_sample : ∃ bytes, build_fs sampleDir = .ok bytes ∧
    Holds (loaded 0x200000#32 bytes) 0x200000#32 bytes ∧
    ∃ fs, RoundTrip (sorted sampleDir) (loaded 0x200000#32 bytes) 0x200000#32 fs := by
  have ordered : sorted sampleDir = [⟨"a".toList,[3#8]⟩,⟨"b".toList,[1#8,2#8]⟩] := by
    have before : ['a'] < ['b'] := by decide
    simp [sorted,regular,sampleDir,List.mergeSort,List.MergeSort.Internal.splitInTwo,List.merge,before]
  have small : image_size (sorted sampleDir) < 2^32 := by
    rw [ordered]
    decide
  obtain ⟨bytes,built,length,_,_,reads⟩ := sofs_round_trip sampleDir 0x200000#32 (by decide) (by decide)
    (by simp [Ascii,regular,sampleDir]) (by decide) small (by decide)
  have holds := loaded_holds (a := 0x200000#32) (show bytes.length ≤ 2^32 by omega)
  exact ⟨bytes,built,holds,reads _ holds⟩

/-- A directory with one file. -/
def singleDir : List DirEntry := [⟨"a".toList,some [3#8]⟩]

/-- At address 0 the image is accepted, but the instance looks like one without a file system. -/
theorem image_at_zero_unseen : ∃ bytes, build_fs singleDir = .ok bytes ∧ Holds (loaded 0#32 bytes) 0#32 bytes ∧
    (fs_init (loaded 0#32 bytes) 0#32).1 = 0 ∧
    fs_find (loaded 0#32 bytes) (fs_init (loaded 0#32 bytes) 0#32).2 (ascii "a".toList) = -1 := by
  have alone : sorted singleDir = [⟨"a".toList,[3#8]⟩] := List.mergeSort_singleton _
  have small : image_size (sorted singleDir) < 2^32 := by
    rw [alone]
    decide
  have holds := loaded_holds (a := 0#32) (show (image (sorted singleDir)).length ≤ 2^32 by rw [image_length]; omega)
  refine ⟨image (sorted singleDir),build_fs_ok (by decide) (by simp [Ascii,regular,singleDir]) small,holds,?_,?_⟩
  · rw [init_image holds]
  · rw [init_image holds]
    rfl

end SoKernel.Mkfs
