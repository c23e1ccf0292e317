import SoKernel.CallerBuffers
import SoKernel.Lists
import SoKernel.Mkfs

/-!
Listing the files of an image. `fs_list` writes the names of the first files, each
with a newline, as many as fit into the buffer with the terminating zero. Whoever
reads the text back by splitting it at the newlines gets the names, unless one of
them has a newline of its own, which `mkfs.py` does not rule out.
-/
namespace SoKernel.FileListing
open SoKernel.Words SoKernel.Paging SoKernel.Fs SoKernel.Process SoKernel.Syscalls SoKernel.CallerBuffers SoKernel.Mkfs
  SoKernel.Lists
set_option linter.unusedSimpArgs false

/-! ### The text in the buffer -/

/-- The bytes of the buffer are different bytes, and none of them belongs to a name in
    the table. -/
structure Buffer (f : Word → Word) (fs : FsInstance) (files : Nat) (buf buf_size : Word) : Prop where
  own : ∀ i < buf_size.toNat, ∀ j < buf_size.toNat, f (buf+BitVec.ofNat 32 i) = f (buf+BitVec.ofNat 32 j) → i = j
  apart : ∀ i : Nat, i < files → ∀ n < FS_MAX_NAME, ∀ j < buf_size.toNat,
    f (entry_addr fs i+BitVec.ofNat 32 n) ≠ f (buf+BitVec.ofNat 32 j)

/-- The buffer starts with a text, and no other memory has changed. -/
structure Shows (f : Word → Word) (m : Memory) (buf : Word) (text : List Byte) (t : Touched) : Prop where
  here : Holds (seen (fun _ => f) t.mem) buf text
  elsewhere : ∀ p, (∀ j < text.length, p ≠ f (buf+BitVec.ofNat 32 j)) → t.mem p = m p

section Text
variable {f : Word → Word} {m : Memory} {fs : FsInstance} {buf buf_size : Word} {files : Nat} {text : List Byte} {t : Touched}

theorem shows_put (buffer : Buffer f fs files buf buf_size) (shows : Shows f m buf text t)
    (inside : text.length < buf_size.toNat) (b : Byte) :
    Shows f m buf (text++[b]) (t.put (fun _ => f) (buf+BitVec.ofNat 32 text.length) b) := by
  constructor
  · rw [holds_append]
    constructor
    · intro i c here
      obtain ⟨within,_⟩ := List.getElem?_eq_some_iff.mp here
      have other : f (buf+BitVec.ofNat 32 i) ≠ f (buf+BitVec.ofNat 32 text.length) := fun same =>
        absurd (buffer.own i (by omega) _ inside same) (by omega)
      change write8 t.mem (f (buf+BitVec.ofNat 32 text.length)) b (f (buf+BitVec.ofNat 32 i)) = c
      rw [write8,if_neg other]
      exact shows.here i c here
    · intro i c here
      obtain ⟨first,rfl⟩ : i = 0 ∧ b = c := by
        cases i with
        | zero => exact ⟨rfl,by simpa using here⟩
        | succ i => simp at here
      rw [first]
      change write8 t.mem (f (buf+BitVec.ofNat 32 text.length)) b (f (buf+BitVec.ofNat 32 text.length+0#32)) = b
      rw [BitVec.add_zero,write8,if_pos rfl]
  · intro p outside
    rw [List.length_append,List.length_singleton] at outside
    change write8 t.mem (f (buf+BitVec.ofNat 32 text.length)) b p = m p
    rw [write8,if_neg (outside text.length (by omega))]
    exact shows.elsewhere p (fun j below => outside j (by omega))

/-- Bytes from outside the buffer are copied behind the text. -/
theorem shows_copy (buffer : Buffer f fs files buf buf_size) (shows : Shows f m buf text t) {src : Word} {bytes : List Byte}
    (fits : text.length+bytes.length ≤ buf_size.toNat) (source : Holds (seen (fun _ => f) m) src bytes)
    (away : ∀ i < bytes.length, ∀ j < buf_size.toNat, f (src+BitVec.ofNat 32 i) ≠ f (buf+BitVec.ofNat 32 j)) :
    Shows f m buf (text++bytes) (t.copy (fun _ => f) (buf+BitVec.ofNat 32 text.length) src bytes.length) := by
  have rounds : ∀ n ≤ bytes.length,
      Shows f m buf (text++bytes.take n) (t.copy (fun _ => f) (buf+BitVec.ofNat 32 text.length) src n) := by
    intro n
    induction n with
    | zero =>
      intro _
      rw [List.take_zero,List.append_nil]
      exact shows
    | succ n ih =>
      intro inside
      have before := ih (by omega)
      have length : (text++bytes.take n).length = text.length+n := by
        rw [List.length_append,List.length_take,Nat.min_eq_left (by omega)]
      have next := List.getElem?_eq_getElem (show n < bytes.length from inside)
      have loaded : load8 (fun _ => f) (t.copy (fun _ => f) (buf+BitVec.ofNat 32 text.length) src n).mem
          (src+BitVec.ofNat 32 n) = bytes[n] := by
        have kept := before.elsewhere (f (src+BitVec.ofNat 32 n)) (fun j below => away n inside j (by omega))
        exact kept.trans (source n _ next)
      have put := shows_put buffer before (by omega) bytes[n]
      rw [length,BitVec.ofNat_add,← BitVec.add_assoc,List.append_assoc] at put
      rw [copy_succ,loaded,List.take_add_one,next]
      exact put
  have whole := rounds bytes.length (le_refl _)
  rwa [List.take_length] at whole

/-- A buffer that is apart from a name leaves room for it in the address space. -/
theorem buffer_room (buffer : Buffer f fs files buf buf_size) (some_file : 0 < files) (positive : 0 < buf_size.toNat) :
    buf_size.toNat+FS_MAX_NAME ≤ 2^32 := by
  have outside : ∀ n < FS_MAX_NAME, ∀ j < buf_size.toNat, entry_addr fs (0 : Nat)+BitVec.ofNat 32 n ≠ buf+BitVec.ofNat 32 j :=
    fun n inField j below same => buffer.apart 0 some_file n inField j below (by rw [same])
  generalize entry_addr fs (0 : Nat) = a at outside
  have start := (a-buf).isLt
  -- The offset of the field in the buffer, as if the buffer went on.
  have beyond : ∀ n < FS_MAX_NAME, buf_size.toNat ≤ ((a-buf).toNat+n) % 2^32 := by
    intro n inField
    by_contra inBuffer
    refine outside n inField (((a-buf).toNat+n) % 2^32) (by omega) ?_
    bv_omega
  have first := beyond 0 (by decide)
  have bound := buf_size.isLt
  by_contra tooLong
  simp only [FS_MAX_NAME] at tooLong beyond
  have wraps := beyond (2^32-(a-buf).toNat) (by omega)
  omega

end Text

/-! ### The loop -/

/-- The table of an instance holds these names, each with its end in its field. -/
def Named (m : Memory) (fs : FsInstance) (names : List (List Byte)) : Prop :=
  ∀ (i : Nat) (name : List Byte), names[i]? = some name →
    Holds m (entry_addr fs i) (name++[0#8]) ∧ Text name ∧ name.length < FS_MAX_NAME

section Loop
variable {f : Word → Word} {m : Memory} {fs : FsInstance} {buf buf_size : Word} {names : List (List Byte)} {t : Touched}

/-- The names are still there while the buffer fills up. -/
theorem strlen_named (named : Named (seen (fun _ => f) m) fs names) (buffer : Buffer f fs names.length buf buf_size)
    {text : List Byte} (shows : Shows f m buf text t) (inside : text.length ≤ buf_size.toNat) {i : Nat} {name : List Byte}
    (here : names[i]? = some name) : (strlen (seen (fun _ => f) t.mem) (entry_addr fs i)).toNat = name.length := by
  obtain ⟨stored,nonzero,short⟩ := named i name here
  obtain ⟨below,_⟩ := List.getElem?_eq_some_iff.mp here
  have kept : ∀ n < FS_MAX_NAME, seen (fun _ => f) t.mem (entry_addr fs i+BitVec.ofNat 32 n) =
      seen (fun _ => f) m (entry_addr fs i+BitVec.ofNat 32 n) := fun n inField =>
    shows.elsewhere _ (fun j within => buffer.apart i below n inField j (by omega))
  obtain ⟨first,last⟩ := holds_append.mp stored
  refine strlen_eq (by simp only [FS_MAX_NAME] at short; omega) ?_ ?_
  · rw [kept _ short]
    simpa using last 0 0#8 rfl
  · intro n before
    rw [kept n (by omega),first n _ (List.getElem?_eq_getElem before)]
    exact nonzero _ (List.getElem_mem before)

/-- The loop of `fs_list` goes on as long as the next name fits. -/
theorem fs_list_from_shows (named : Named (seen (fun _ => f) m) fs names) (buffer : Buffer f fs names.length buf buf_size)
    {left i : Nat} (rest : i+left = names.length) (fits : (joined 10#8 (names.take i)).length < buf_size.toNat)
    (shows : Shows f m buf (joined 10#8 (names.take i)) t) :
    ∃ t', Shows f m buf (joined 10#8 (names.take (fitting 10#8 names buf_size.toNat))) t' ∧
      fs_list_from (fun _ => f) fs buf buf_size left i (BitVec.ofNat 32 (joined 10#8 (names.take i)).length) t =
        (BitVec.ofNat 32 (joined 10#8 (names.take (fitting 10#8 names buf_size.toNat))).length,t') := by
  induction left generalizing i t with
  | zero =>
    rw [fitting_eq (by omega) fits (.inl (by omega))]
    exact ⟨t,shows,rfl⟩
  | succ left ih =>
    have here := List.getElem?_eq_getElem (show i < names.length by omega)
    have length := strlen_named named buffer shows (by omega) here
    obtain ⟨stored,_,short⟩ := named i _ here
    have room := buffer_room buffer (show 0 < names.length by omega) (by omega)
    have next : joined 10#8 (names.take (i+1)) = joined 10#8 (names.take i)++names[i]++[10#8] := joined_next here
    have more : (joined 10#8 (names.take (i+1))).length = (joined 10#8 (names.take i)).length+names[i].length+1 := by
      rw [next,List.length_append,List.length_append,List.length_singleton]
    simp only [FS_MAX_NAME] at short room
    rw [fs_list_from]
    by_cases wide : (joined 10#8 (names.take i)).length+1 < buf_size.toNat
    · rw [if_pos (by bv_omega)]
      simp only []
      generalize strlen (seen (fun _ => f) t.mem) (entry_addr fs i) = nlen at length ⊢
      by_cases enough : (joined 10#8 (names.take (i+1))).length < buf_size.toNat
      · have copied := shows_copy buffer shows (by omega) (holds_append.mp stored).1
          (fun n inName j below => buffer.apart i (by omega) n (by simp only [FS_MAX_NAME]; omega) j below)
        have listed := shows_put buffer copied (by rw [List.length_append]; omega) 10#8
        rw [← next,List.length_append] at listed
        have place : buf+(BitVec.ofNat 32 (joined 10#8 (names.take i)).length+nlen) =
            buf+BitVec.ofNat 32 ((joined 10#8 (names.take i)).length+names[i].length) := by bv_omega
        have after : BitVec.ofNat 32 (joined 10#8 (names.take i)).length+nlen+1#32 =
            BitVec.ofNat 32 (joined 10#8 (names.take (i+1))).length := by bv_omega
        rw [if_neg (by bv_omega),place,after,length]
        exact ih (by omega) enough listed
      · rw [if_pos (by bv_omega),fitting_eq (by omega) fits (.inr enough)]
        exact ⟨t,shows,rfl⟩
    · rw [if_neg (by bv_omega),fitting_eq (by omega) fits (.inr (by omega))]
      exact ⟨t,shows,rfl⟩

/-- `fs_list` writes the text of the names that fit and a zero, and returns the length
    of the text. -/
theorem fs_list_shows (named : Named (seen (fun _ => f) m) fs names)
    (count : (num_files (seen (fun _ => f) m) fs).toNat = names.length)
    (mounted : fs.header ≠ 0#32) (buffer : Buffer f fs names.length buf buf_size) (positive : 0 < buf_size.toNat) :
    (fs_list (fun _ => f) fs buf buf_size ⟨m,[],[]⟩).1.toNat =
        (joined 10#8 (names.take (fitting 10#8 names buf_size.toNat))).length ∧
      Shows f m buf (joined 10#8 (names.take (fitting 10#8 names buf_size.toNat))++[0#8])
        (fs_list (fun _ => f) fs buf buf_size ⟨m,[],[]⟩).2 := by
  have begins : Shows f m buf (joined 10#8 (names.take 0)) ⟨m,[],[]⟩ := ⟨by simp [joined,Holds],fun _ _ => rfl⟩
  obtain ⟨t,shows,listed⟩ := fs_list_from_shows named buffer (Nat.zero_add _) positive begins
  have fits := (fitting_largest 10#8 names positive).1
  have bound := buf_size.isLt
  have start : fs_list_from (fun _ => f) fs buf buf_size names.length 0 0#32 ⟨m,[],[]⟩ = _ := listed
  rw [fs_list,if_neg mounted,count,start]
  refine ⟨?_,shows_put buffer shows fits 0#8⟩
  rw [BitVec.toNat_ofNat,Nat.mod_eq_of_lt (by omega)]

end Loop

/-! ### Images from `mkfs.py` -/

/-- The names in the table of an image. -/
def names (input_dir : List DirEntry) : List (List Byte) := (sorted input_dir).map cut_name

/-- `fs_list` writes the largest number of whole names that fit, each with a newline, and
    a zero; it returns the length of the text and changes nothing else; and the text,
    split at the newlines, gives these names back, all of which `fs_find` accepts. -/
structure ListsNames (f : Word → Word) (m : Memory) (fs : FsInstance) (names : List (List Byte)) (buf buf_size : Word)
    (k : Nat) : Prop where
  inside : k ≤ names.length
  fits : (joined 10#8 (names.take k)).length+1 ≤ buf_size.toNat
  largest : ∀ n, k < n → n ≤ names.length → ¬ (joined 10#8 (names.take n)).length+1 ≤ buf_size.toNat
  count : (fs_list (fun _ => f) fs buf buf_size ⟨m,[],[]⟩).1.toNat = (joined 10#8 (names.take k)).length
  text : Holds (seen (fun _ => f) (fs_list (fun _ => f) fs buf buf_size ⟨m,[],[]⟩).2.mem) buf
    (joined 10#8 (names.take k)++[0#8])
  rest : ∀ p, (∀ j ≤ (joined 10#8 (names.take k)).length, p ≠ f (buf+BitVec.ofNat 32 j)) →
    (fs_list (fun _ => f) fs buf buf_size ⟨m,[],[]⟩).2.mem p = m p
  split : (joined 10#8 (names.take k)).splitOn 10#8 = names.take k++[[]]
  accepted : ∀ name ∈ names.take k, 0 ≤ fs_find (seen (fun _ => f) m) fs name

section Images
variable {f : Word → Word} {m : Memory} {input_dir : List DirEntry} {bytes : List Byte} {base buf buf_size : Word}

/-- File names have no zero byte, and an image has only ASCII names. -/
theorem image_named (built : build_fs input_dir = .ok bytes)
    (filenames : ∀ g ∈ regular input_dir, ∀ c ∈ g.name, 0 < c.toNat) (holds : Holds m base bytes) :
    Named m (mounted base) (names input_dir) ∧ (num_files m (mounted base)).toNat = (names input_dir).length ∧
      0 < (names input_dir).length ∧
      (base ≠ 0#32 → ∀ name ∈ names input_dir, 0 ≤ fs_find m (mounted base) name) := by
  obtain ⟨rfl,nonempty,table,small⟩ := build_fs_inv built
  have ok : ∀ g ∈ sorted input_dir, Ascii g.name := fun g member c inside =>
    ⟨filenames g (mem_sorted.mp member) c inside,small g member c inside⟩
  have few : (sorted input_dir).length < 2^31 := by
    simp only [data_start,HEADER_SIZE,ENTRY_SIZE,MAX_NAME] at table
    omega
  have length : (names input_dir).length = (sorted input_dir).length := List.length_map ..
  refine ⟨?_,?_,?_,?_⟩
  · intro i name here
    rw [names,List.getElem?_map] at here
    obtain ⟨g,there,rfl⟩ := Option.map_eq_some_iff.mp here
    have short := cut_name_length g
    refine ⟨name_image holds there,cut_name_text (ok g (List.mem_of_getElem? there)),?_⟩
    simp only [MAX_NAME,FS_MAX_NAME] at short ⊢
    omega
  · rw [length,num_files_image holds (by omega)]
  · rw [length]
    exact List.length_pos_iff.mpr nonempty
  · intro nonzero name member
    obtain ⟨g,inside,rfl⟩ := List.mem_map.mp member
    obtain ⟨i,_,_,_,_,found⟩ := find_image holds nonzero ok few inside
    rw [found]
    omega

/-- For every image that `mkfs.py` writes, loaded anywhere but at address 0, and every
    buffer of its own, `fs_list` lists the names that fit, and they can be read back
    exactly when none of them has a newline. -/
theorem fs_list_lists_names (built : build_fs input_dir = .ok bytes)
    (filenames : ∀ g ∈ regular input_dir, ∀ c ∈ g.name, 0 < c.toNat) (nonzero : base ≠ 0#32)
    (holds : Holds (seen (fun _ => f) m) base bytes) (positive : 1 ≤ buf_size.toNat)
    (buffer : Buffer f (mounted base) (names input_dir).length buf buf_size) :
    ListsNames f m (mounted base) (names input_dir) buf buf_size (fitting 10#8 (names input_dir) buf_size.toNat) ↔
      ∀ name ∈ (names input_dir).take (fitting 10#8 (names input_dir) buf_size.toNat), 10#8 ∉ name := by
  obtain ⟨named,count,_,found⟩ := image_named built filenames holds
  obtain ⟨returned,shows⟩ := fs_list_shows named count nonzero buffer positive
  obtain ⟨fits,largest⟩ := fitting_largest 10#8 (names input_dir) positive
  constructor
  · exact fun lists => (splitOn_joined_iff _).mp lists.split
  · intro clean
    constructor
    case inside => exact Nat.findGreatest_le _
    case fits => exact fits
    case largest =>
      intro n more inside short
      have := largest n more inside
      omega
    case count => exact returned
    case text => exact shows.here
    case rest =>
      intro p outside
      refine shows.elsewhere p (fun j below => outside j ?_)
      rw [List.length_append,List.length_singleton] at below
      omega
    case split => exact (splitOn_joined_iff _).mpr clean
    case accepted => exact fun name member => found nonzero name (List.mem_of_mem_take member)

end Images

/-! ### Two directories -/

/-- The buffer at 0x1000 is apart from an image at 0x200000. -/
theorem small_buffer {files : Nat} (few : files ≤ 2) : Buffer id (mounted 0x200000#32) files 0x1000#32 16#32 := by
  constructor
  · intro i below j below' same
    simp only [id,BitVec.toNat_ofNat] at below below' same
    bv_omega
  · intro i inside n inField j below same
    have entry : (entry_addr (mounted 0x200000#32) i).toNat = 0x200008+72*i := by
      simp only [entry_addr,mounted,sizeof_fs_header,sizeof_fs_file_entry,FS_MAX_NAME]
      norm_cast
      rw [BitVec.ofInt_natCast,BitVec.toNat_add,BitVec.toNat_ofNat]
      simp only [BitVec.reduceAdd,BitVec.reduceToNat]
      omega
    have short : n < 64 := inField
    have near : j < 16 := below
    have address : (entry_addr (mounted 0x200000#32) i+BitVec.ofNat 32 n).toNat = (0x1000#32+BitVec.ofNat 32 j).toNat :=
      congrArg BitVec.toNat same
    rw [BitVec.toNat_add,BitVec.toNat_add,entry,BitVec.toNat_ofNat,BitVec.toNat_ofNat,BitVec.toNat_ofNat,
      Nat.mod_eq_of_lt (by omega),Nat.mod_eq_of_lt (by omega)] at address
    omega

theorem fs_list_lists_names_sample : ∃ bytes, build_fs sampleDir = .ok bytes ∧
    Holds (seen (fun _ => id) (loaded 0x200000#32 bytes)) 0x200000#32 bytes ∧
    names sampleDir = [[0x61#8],[0x62#8]] ∧
    ListsNames id (loaded 0x200000#32 bytes) (mounted 0x200000#32) (names sampleDir) 0x1000#32 16#32
      (fitting 10#8 (names sampleDir) 16) := by
  have ordered : sorted sampleDir = [⟨"a".toList,[3#8]⟩,⟨"b".toList,[1#8,2#8]⟩] := by
    have before : ['a'] < ['b'] := by decide
    simp [sorted,regular,sampleDir,List.mergeSort,List.MergeSort.Internal.splitInTwo,List.merge,before]
  have listed : names sampleDir = [[0x61#8],[0x62#8]] := by
    rw [names,ordered]
    decide
  have small : image_size (sorted sampleDir) < 2^32 := by
    rw [ordered]
    decide
  have built := build_fs_ok (show regular sampleDir ≠ [] by decide) (by simp [Ascii,regular,sampleDir]) small
  have holds : Holds (seen (fun _ => id) (loaded 0x200000#32 (image (sorted sampleDir)))) 0x200000#32 (image (sorted sampleDir)) :=
    loaded_holds (by rw [image_length]; omega)
  refine ⟨_,built,holds,listed,?_⟩
  refine (fs_list_lists_names built (by simp [regular,sampleDir]) (by decide) holds (by decide)
    (small_buffer (by rw [listed]; decide))).mpr ?_
  rw [listed]
  decide

/-- A directory with one file, whose name has a newline. -/
def newlineDir : List DirEntry := [⟨['a','\n','b'],some [3#8]⟩]

/-- The listing of this directory reads like one of two files. -/
theorem newline_read_as_two : ∃ bytes, build_fs newlineDir = .ok bytes ∧
    Holds (seen (fun _ => id) (loaded 0x200000#32 bytes)) 0x200000#32 bytes ∧
    names newlineDir = [[0x61#8,0x0A#8,0x62#8]] ∧ fitting 10#8 (names newlineDir) 16 = 1 ∧
    (fs_list (fun _ => id) (mounted 0x200000#32) 0x1000#32 16#32 ⟨loaded 0x200000#32 bytes,[],[]⟩).1.toNat = 4 ∧
    Holds (seen (fun _ => id)
      (fs_list (fun _ => id) (mounted 0x200000#32) 0x1000#32 16#32 ⟨loaded 0x200000#32 bytes,[],[]⟩).2.mem) 0x1000#32
      [0x61#8,0x0A#8,0x62#8,0x0A#8,0#8] ∧
    [0x61#8,0x0A#8,0x62#8,0x0A#8].splitOn 0x0A#8 = [[0x61#8],[0x62#8],[]] ∧
    ¬ ListsNames id (loaded 0x200000#32 bytes) (mounted 0x200000#32) (names newlineDir) 0x1000#32 16#32 1 := by
  have alone : sorted newlineDir = [⟨['a','\n','b'],[3#8]⟩] := List.mergeSort_singleton _
  have listed : names newlineDir = [[0x61#8,0x0A#8,0x62#8]] := by
    rw [names,alone]
    decide
  have small : image_size (sorted newlineDir) < 2^32 := by
    rw [alone]
    decide
  have built := build_fs_ok (show regular newlineDir ≠ [] by decide) (by simp [Ascii,regular,newlineDir]) small
  have holds : Holds (seen (fun _ => id) (loaded 0x200000#32 (image (sorted newlineDir)))) 0x200000#32 (image (sorted newlineDir)) :=
    loaded_holds (by rw [image_length]; omega)
  have one : fitting 10#8 (names newlineDir) 16 = 1 := by
    rw [listed]
    decide
  obtain ⟨named,count,_,_⟩ := image_named built (by simp [regular,newlineDir]) holds
  obtain ⟨returned,shows⟩ := fs_list_shows named count (show (mounted 0x200000#32).header ≠ 0#32 by decide)
    (small_buffer (by rw [listed]; decide)) (by decide)
  have text : joined 10#8 ((names newlineDir).take (fitting 10#8 (names newlineDir) (16#32 : Word).toNat)) =
      [0x61#8,0x0A#8,0x62#8,0x0A#8] := by
    rw [show (16#32 : Word).toNat = 16 from rfl,one,listed]
    decide
  rw [text] at returned shows
  refine ⟨_,built,holds,listed,one,returned,shows.here,by decide,fun lists => ?_⟩
  have split := lists.split
  rw [listed] at split
  exact absurd split (by decide)

end SoKernel.FileListing
