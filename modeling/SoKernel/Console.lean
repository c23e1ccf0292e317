import SoKernel.Words
import SoKernel.Terminal

/-!
The console driver of `fb.c`. The framebuffer is 4000 bytes, two for each cell,
and the driver keeps the position of the next character. To scroll, it copies the
framebuffer onto itself byte by byte.
-/
namespace SoKernel.Console
open SoKernel.Words SoKernel.Terminal
set_option linter.unusedSimpArgs false

abbrev FB_COLS : Nat := 80
abbrev FB_ROWS : Nat := 25
abbrev FB_SIZE : Nat := FB_COLS*FB_ROWS

def FB_COMMAND_PORT : Nat := 0x3D4
def FB_DATA_PORT : Nat := 0x3D5
def FB_HIGH_BYTE_COMMAND : Byte := 14#8
def FB_LOW_BYTE_COMMAND : Byte := 15#8

def FB_BLACK : Byte := 0#8
def FB_WHITE : Byte := 15#8
def FB_DEFAULT_FG : Byte := FB_WHITE
def FB_DEFAULT_BG : Byte := FB_BLACK

/-- The bytes from `fb` on and the cursor; and what the driver has done so far: the
    offsets it has stored to and what it has sent to ports, the latest first. -/
structure Fb where
  fb : Nat → Byte
  fb_cursor : Nat
  stored : List Nat
  sent : List (Nat × Byte)

namespace Fb

def store (s : Fb) (offset : Nat) (b : Byte) : Fb :=
  { s with fb := Function.update s.fb offset b, stored := offset :: s.stored }

def outb (s : Fb) (port : Nat) (b : Byte) : Fb := { s with sent := (port,b) :: s.sent }

/-- The cursor is an `unsigned short`. -/
def setCursor (s : Fb) (n : Nat) : Fb := { s with fb_cursor := n % 65536 }

end Fb

def attribute_byte (fg bg : Byte) : Byte := ((fg &&& 0x0F#8) <<< 4) ||| (bg &&& 0x0F#8)

def fb_write_cell (s : Fb) (i : Nat) (c fg bg : Byte) : Fb :=
  let offset := i*2
  (s.store offset c).store (offset+1) (attribute_byte fg bg)

def fb_scroll (s : Fb) : Fb :=
  let moved := (List.range ((FB_SIZE-FB_COLS)*2)).foldl (fun s i => s.store i (s.fb (i+FB_COLS*2))) s
  let cleared := (List.range' ((FB_SIZE-FB_COLS)*2) FB_COLS 2).foldl (fun s i =>
    (s.store i 0x20#8).store (i+1) (attribute_byte FB_DEFAULT_FG FB_DEFAULT_BG)) moved
  cleared.setCursor (FB_SIZE-FB_COLS)

def fb_move_cursor (s : Fb) (pos : Nat) : Fb :=
  (((s.outb FB_COMMAND_PORT FB_HIGH_BYTE_COMMAND).outb FB_DATA_PORT (BitVec.ofNat 8 (pos/256))).outb
    FB_COMMAND_PORT FB_LOW_BYTE_COMMAND).outb FB_DATA_PORT (BitVec.ofNat 8 pos)

def fb_clear (s : Fb) : Fb :=
  let cleared := (List.range FB_SIZE).foldl (fun s i => fb_write_cell s i 0x20#8 FB_DEFAULT_FG FB_DEFAULT_BG) s
  fb_move_cursor (cleared.setCursor 0) 0

/-- The body of the loop of `fb_write`. -/
def fb_write_byte (s : Fb) (c : Byte) : Fb :=
  let moved :=
    if c = 8#8 then
      if 0 < s.fb_cursor then
        fb_write_cell (s.setCursor (s.fb_cursor-1)) (s.setCursor (s.fb_cursor-1)).fb_cursor 0x20#8 FB_DEFAULT_FG
          FB_DEFAULT_BG
      else s
    else if c = 10#8 then s.setCursor (s.fb_cursor+(FB_COLS-s.fb_cursor % FB_COLS))
    else (fb_write_cell s s.fb_cursor c FB_DEFAULT_FG FB_DEFAULT_BG).setCursor (s.fb_cursor+1)
  if FB_SIZE ≤ moved.fb_cursor then fb_scroll moved else moved

def fb_write (s : Fb) (buf : List Byte) : Word × Fb :=
  let written := buf.foldl fb_write_byte s
  (BitVec.ofNat 32 buf.length,fb_move_cursor written written.fb_cursor)

/-! ### The screen -/

/-- A space in the default colours, whose attribute byte is 0xF0: black on white. -/
def blank : Byte × Byte := (0x20#8,attribute_byte FB_DEFAULT_FG FB_DEFAULT_BG)

def glyph (c : Byte) : Glyph (Byte × Byte) :=
  if c = 8#8 then .back
  else if c = 10#8 then .newline
  else .put (c,attribute_byte FB_DEFAULT_FG FB_DEFAULT_BG)

/-- The cells of the framebuffer. -/
def screen (s : Fb) : Screen (Byte × Byte) := ⟨fun i => (s.fb (i*2),s.fb (i*2+1)),s.fb_cursor⟩

section
variable (s : Fb)

@[simp] theorem Fb.store_fb (offset : Nat) (b : Byte) : (s.store offset b).fb = Function.update s.fb offset b := rfl
@[simp] theorem screen_cursor : (screen s).cursor = s.fb_cursor := rfl
@[simp] theorem screen_move_cursor (pos : Nat) : screen (fb_move_cursor s pos) = screen s := rfl
@[simp] theorem screen_setCursor (n : Nat) : screen (s.setCursor n) = { screen s with cursor := n % 65536 } := rfl

theorem screen_write_cell (i : Nat) (c fg bg : Byte) :
    screen (fb_write_cell s i c fg bg) = (screen s).fill i (c,attribute_byte fg bg) := by
  simp only [screen,fb_write_cell,Fb.store,Screen.fill,Screen.mk.injEq,and_true]
  funext j
  by_cases same : j = i
  · simp [same]
  · simp only [Function.update_apply,same,if_false,show j*2 ≠ i*2 by omega,show j*2 ≠ i*2+1 by omega,
      show j*2+1 ≠ i*2 by omega,show j*2+1 ≠ i*2+1 by omega]

/-- Copying forward reads only bytes that have not been stored to yet. -/
theorem copy_loop (d n : Nat) :
    ((List.range n).foldl (fun s i => s.store i (s.fb (i+d))) s).fb =
        (fun j => if j < n then s.fb (j+d) else s.fb j) ∧
      ((List.range n).foldl (fun s i => s.store i (s.fb (i+d))) s).fb_cursor = s.fb_cursor := by
  induction n with
  | zero => exact ⟨by simp,rfl⟩
  | succ n ih =>
    rw [List.range_succ,List.foldl_append,List.foldl_cons,List.foldl_nil]
    refine ⟨?_,ih.2⟩
    rw [Fb.store_fb,ih.1]
    funext j
    by_cases same : j = n
    · simp [same]
    · rw [Function.update_of_ne same]
      by_cases below : j < n
      · rw [if_pos below,if_pos (by omega)]
      · rw [if_neg below,if_neg (by omega)]

/-- Cells that are written one after another. -/
theorem fill_loop (start n : Nat) (c fg bg : Byte) :
    screen ((List.range' start n).foldl (fun s i => fb_write_cell s i c fg bg) s) =
      { screen s with
        cell := fun j => if start ≤ j ∧ j < start+n then (c,attribute_byte fg bg) else (screen s).cell j } := by
  induction n with
  | zero =>
    have none : ∀ j, ¬ (start ≤ j ∧ j < start+0) := by omega
    simp only [none,if_false]
    rfl
  | succ n ih =>
    rw [List.range'_concat,List.foldl_append,List.foldl_cons,List.foldl_nil,screen_write_cell,ih]
    simp only [Screen.fill,Screen.mk.injEq,and_true]
    funext j
    by_cases same : j = start+1*n
    · rw [same,Function.update_self,if_pos (by omega)]
    · rw [Function.update_of_ne same]
      exact if_congr (by omega) rfl rfl

theorem range_even (a n : Nat) : List.range' (a*2) n 2 = (List.range' a n).map (· * 2) := by
  induction n with
  | zero => rfl
  | succ n ih =>
    rw [List.range'_concat,List.range'_concat,List.map_append,ih,List.map_singleton]
    congr 2
    omega

theorem screen_scroll : screen (fb_scroll s) = (screen s).scroll FB_COLS FB_ROWS blank := by
  obtain ⟨bytes,_⟩ := copy_loop s (FB_COLS*2) ((FB_SIZE-FB_COLS)*2)
  simp only [fb_scroll]
  generalize (List.range ((FB_SIZE-FB_COLS)*2)).foldl _ s = moved at bytes ⊢
  rw [range_even,List.foldl_map,screen_setCursor]
  have cleared := fill_loop moved (FB_SIZE-FB_COLS) FB_COLS 0x20#8 FB_DEFAULT_FG FB_DEFAULT_BG
  simp only [fb_write_cell] at cleared
  rw [cleared]
  simp only [Screen.scroll,Screen.mk.injEq]
  refine ⟨?_,by decide⟩
  funext j
  simp only [screen,bytes,FB_SIZE,FB_COLS,FB_ROWS,blank]
  by_cases upper : j < 1920
  · have low : ¬ 1920 ≤ j := by omega
    have even : j*2 < 3840 ∧ (j+80)*2 = j*2+160 := by omega
    have odd : j*2+1 < 3840 ∧ (j+80)*2+1 = j*2+1+160 := by omega
    simp [low,upper,even,odd]
  · have high : 1920 ≤ j := by omega
    have even : ¬ j*2 < 3840 := by omega
    have odd : ¬ j*2+1 < 3840 := by omega
    simp [high,upper,even,odd]

theorem screen_clear : (screen (fb_clear s)).cursor = 0 ∧ ∀ i < FB_ROWS*FB_COLS, (screen (fb_clear s)).cell i = blank := by
  have cleared := fill_loop s 0 FB_SIZE 0x20#8 FB_DEFAULT_FG FB_DEFAULT_BG
  rw [fb_clear,screen_move_cursor,screen_setCursor,List.range_eq_range',cleared]
  refine ⟨rfl,fun i inside => if_pos ⟨Nat.zero_le i,?_⟩⟩
  rw [Nat.zero_add]
  exact inside

theorem screen_follow : screen (if FB_SIZE ≤ s.fb_cursor then fb_scroll s else s) =
    (screen s).follow FB_COLS FB_ROWS blank := by
  rw [Screen.follow,screen_cursor,Nat.mul_comm FB_ROWS,← screen_scroll]
  split <;> rfl

end

/-- A round of the loop does to the screen what its character says. -/
theorem screen_write_byte {s : Fb} (inside : s.fb_cursor < FB_SIZE) (c : Byte) :
    screen (fb_write_byte s c) = (screen s).write FB_COLS FB_ROWS blank (glyph c) := by
  have bound : FB_SIZE = 2000 ∧ FB_COLS = 80 ∧ FB_ROWS*FB_COLS = 2000 := by decide
  rw [fb_write_byte,screen_follow,glyph]
  by_cases back : c = 8#8
  · rw [if_pos back,if_pos back,Screen.write,screen_cursor]
    by_cases first : 0 < s.fb_cursor
    · have small : (s.fb_cursor-1) % 65536 = s.fb_cursor-1 := Nat.mod_eq_of_lt (by omega)
      rw [if_pos first,if_pos first,screen_write_cell,screen_setCursor,Fb.setCursor]
      simp only [small]
      refine follow_inside ?_
      change s.fb_cursor-1 < _
      omega
    · rw [if_neg first,if_neg first]
      refine follow_inside ?_
      rw [screen_cursor]
      omega
  · rw [if_neg back,if_neg back]
    by_cases newline : c = 10#8
    · have small : (s.fb_cursor+(FB_COLS-s.fb_cursor % FB_COLS)) % 65536 = s.fb_cursor+(FB_COLS-s.fb_cursor % FB_COLS) :=
        Nat.mod_eq_of_lt (by omega)
      rw [if_pos newline,if_pos newline,Screen.write,screen_setCursor,small,screen_cursor]
    · have small : (s.fb_cursor+1) % 65536 = s.fb_cursor+1 := Nat.mod_eq_of_lt (by omega)
      rw [if_neg newline,if_neg newline,Screen.write,screen_setCursor,small,screen_write_cell,screen_cursor]

/-! ### Stores -/

/-- Every store since then was to a byte of the framebuffer. -/
def Within (s t : Fb) : Prop := ∀ offset ∈ t.stored, offset ∈ s.stored ∨ offset < FB_SIZE*2

theorem within_refl (s : Fb) : Within s s := fun _ => .inl

theorem within_trans {s t u : Fb} (first : Within s t) (second : Within t u) : Within s u := by
  intro offset member
  rcases second offset member with old | inside
  · exact first offset old
  · exact .inr inside

theorem within_store (s : Fb) {offset : Nat} (inside : offset < FB_SIZE*2) (b : Byte) : Within s (s.store offset b) := by
  intro o member
  rcases List.mem_cons.mp member with rfl | old
  · exact .inr inside
  · exact .inl old

theorem within_setCursor {s t : Fb} (within : Within s t) (n : Nat) : Within s (t.setCursor n) := within
theorem within_move_cursor {s t : Fb} (within : Within s t) (pos : Nat) : Within s (fb_move_cursor t pos) := within

theorem within_foldl {β : Type} {f : Fb → β → Fb} {xs : List β} (each : ∀ x ∈ xs, ∀ t, Within t (f t x)) (s : Fb) :
    Within s (xs.foldl f s) := by
  induction xs generalizing s with
  | nil => exact within_refl s
  | cons x xs ih =>
    exact within_trans (each x List.mem_cons_self s) (ih (fun y member => each y (List.mem_cons_of_mem _ member)) _)

theorem within_write_cell (s : Fb) {i : Nat} (inside : i < FB_SIZE) (c fg bg : Byte) :
    Within s (fb_write_cell s i c fg bg) :=
  within_trans (within_store s (by omega) c) (within_store _ (by omega) _)

theorem within_scroll (s : Fb) : Within s (fb_scroll s) := by
  have size : FB_SIZE = 2000 ∧ FB_COLS = 80 := by decide
  rw [fb_scroll]
  refine within_setCursor (within_trans (within_foldl (fun i member t => ?_) s) (within_foldl (fun i member t => ?_) _)) _
  · rw [List.mem_range] at member
    exact within_store t (by omega) _
  · rw [List.mem_range'] at member
    obtain ⟨j,below,rfl⟩ := member
    exact within_trans (within_store t (by omega) _) (within_store _ (by omega) _)

theorem within_clear (s : Fb) : Within s (fb_clear s) := by
  rw [fb_clear]
  refine within_move_cursor (within_setCursor (within_foldl (fun i member t => ?_) s) _) _
  exact within_write_cell t (List.mem_range.mp member) _ _ _

theorem within_write_byte {s : Fb} (inside : s.fb_cursor < FB_SIZE) (c : Byte) : Within s (fb_write_byte s c) := by
  have size : FB_SIZE = 2000 := by decide
  have follow : ∀ t, Within s t → Within s (if FB_SIZE ≤ t.fb_cursor then fb_scroll t else t) := by
    intro t within
    split
    · exact within_trans within (within_scroll t)
    · exact within
  refine follow _ ?_
  by_cases back : c = 8#8
  · rw [if_pos back]
    by_cases first : 0 < s.fb_cursor
    · rw [if_pos first]
      refine within_write_cell (s.setCursor _) ?_ _ _ _
      change (s.fb_cursor-1) % 65536 < FB_SIZE
      omega
    · rw [if_neg first]
      exact within_refl s
  · rw [if_neg back]
    by_cases newline : c = 10#8
    · rw [if_pos newline]
      exact within_refl s
    · rw [if_neg newline]
      exact within_setCursor (within_write_cell s inside _ _ _) _

/-! ### Calls -/

/-- A call of the driver by the rest of the kernel. -/
inductive Call
  | clear
  | write (buf : List Byte)

def Call.run (s : Fb) : Call → Fb
  | .clear => fb_clear s
  | .write buf => (fb_write s buf).2

/-- The bytes as they change the grid. -/
def grid_write (g : Grid (Byte × Byte)) (buf : List Byte) : Grid (Byte × Byte) :=
  buf.foldl (fun g c => g.write FB_COLS FB_ROWS blank (glyph c)) g

/-- What a call is for. -/
def Call.onGrid (g : Grid (Byte × Byte)) : Call → Grid (Byte × Byte)
  | .clear => .fresh blank
  | .write buf => grid_write g buf

theorem write_byte_inside {s : Fb} (inside : s.fb_cursor < FB_SIZE) (c : Byte) : (fb_write_byte s c).fb_cursor < FB_SIZE := by
  have same := congrArg Screen.cursor (screen_write_byte inside c)
  rw [screen_cursor] at same
  rw [same]
  exact write_cursor_lt (by decide) (by decide) inside (glyph c)

/-- The loop of `fb_write`, on the screen. -/
theorem screen_bytes {s : Fb} (inside : s.fb_cursor < FB_SIZE) (buf : List Byte) :
    (buf.foldl fb_write_byte s).fb_cursor < FB_SIZE ∧
      screen (buf.foldl fb_write_byte s) =
        buf.foldl (fun w c => w.write FB_COLS FB_ROWS blank (glyph c)) (screen s) := by
  induction buf generalizing s with
  | nil => exact ⟨inside,rfl⟩
  | cons c rest ih =>
    rw [List.foldl_cons,List.foldl_cons,← screen_write_byte inside c]
    exact ih (write_byte_inside inside c)

/-- A string written in pieces. -/
theorem screen_pieces {s : Fb} (inside : s.fb_cursor < FB_SIZE) (pieces : List (List Byte)) :
    screen (pieces.foldl (fun s buf => (fb_write s buf).2) s) = screen (fb_write s pieces.flatten).2 := by
  induction pieces generalizing s with
  | nil => rfl
  | cons buf rest ih =>
    obtain ⟨inside',written⟩ := screen_bytes inside buf
    rw [List.foldl_cons,ih (show (fb_write s buf).2.fb_cursor < FB_SIZE from inside'),List.flatten_cons]
    simp only [fb_write,screen_move_cursor]
    rw [(screen_bytes inside _).2,(screen_bytes (s := fb_move_cursor _ _) inside' _).2,screen_move_cursor,written,
      List.foldl_append]

/-- The framebuffer shows the grid, and no store went anywhere else. -/
structure Refines (s t : Fb) (g : Grid (Byte × Byte)) : Prop where
  shows : Shows FB_COLS FB_ROWS (screen t) g
  tidy : g.Tidy FB_COLS FB_ROWS blank
  within : Within s t

section
variable {s t : Fb} {g : Grid (Byte × Byte)}

theorem refines_cursor (refines : Refines s t g) : t.fb_cursor < FB_SIZE := cursor_lt refines.shows refines.tidy

theorem refines_clear (within : Within s t) : Refines s (fb_clear t) (.fresh blank) := by
  obtain ⟨cursor,cells⟩ := screen_clear t
  obtain ⟨shows,tidy⟩ := fresh_shows (by decide) (by decide) cursor cells
  exact ⟨shows,tidy,within_trans within (within_clear t)⟩

theorem refines_byte (refines : Refines s t g) (c : Byte) :
    Refines s (fb_write_byte t c) (g.write FB_COLS FB_ROWS blank (glyph c)) := by
  have inside := refines_cursor refines
  obtain ⟨shows,tidy⟩ := write_shows (by decide) refines.shows refines.tidy (glyph c)
  refine ⟨?_,tidy,within_trans refines.within (within_write_byte inside c)⟩
  rw [screen_write_byte inside]
  exact shows

theorem refines_bytes (refines : Refines s t g) (buf : List Byte) :
    Refines s (buf.foldl fb_write_byte t) (grid_write g buf) := by
  induction buf generalizing t g with
  | nil => exact refines
  | cons c rest ih => exact ih (refines_byte refines c)

theorem refines_call (refines : Refines s t g) (call : Call) : Refines s (call.run t) (call.onGrid g) := by
  cases call with
  | clear => exact refines_clear refines.within
  | write buf =>
    obtain ⟨shows,tidy,within⟩ := refines_bytes refines buf
    exact ⟨shows,tidy,within_move_cursor within _⟩

theorem refines_calls (refines : Refines s t g) (calls : List Call) :
    Refines s (calls.foldl Call.run t) (calls.foldl Call.onGrid g) := by
  induction calls generalizing t g with
  | nil => exact refines
  | cons call rest ih => exact ih (refines_call refines call)

end

/-- After any calls that start with `fb_clear`, and any bytes of one more string, the
    cursor is on the screen, every store was to the framebuffer, and the framebuffer is
    the part of the grid that is on display. How a string is cut into calls makes no
    difference. -/
theorem console_refines_grid (s : Fb) (calls : List Call) (buf : List Byte) :
    let t := buf.foldl fb_write_byte (calls.foldl Call.run (fb_clear s))
    let g := grid_write (calls.foldl Call.onGrid (.fresh blank)) buf
    t.fb_cursor < 2000 ∧ (∀ offset ∈ t.stored, offset ∈ s.stored ∨ offset < 4000) ∧
      t.fb_cursor = (g.row-g.top)*80+g.col ∧
      (∀ i < 2000, (t.fb (i*2),t.fb (i*2+1)) = g.cell (g.top+i/80) (i % 80)) ∧
      ∀ pieces : List (List Byte),
        let apart := pieces.foldl (fun s buf => (fb_write s buf).2) t
        let whole := (fb_write t pieces.flatten).2
        apart.fb_cursor = whole.fb_cursor ∧ ∀ i < 4000, apart.fb i = whole.fb i := by
  intro t g
  have refines : Refines s t g := refines_bytes (refines_calls (refines_clear (within_refl s)) calls) buf
  refine ⟨refines_cursor refines,refines.within,cursor_eq refines.shows refines.tidy,refines.shows.cells,?_⟩
  intro pieces apart whole
  have same : screen apart = screen whole := screen_pieces (refines_cursor refines) pieces
  refine ⟨congrArg Screen.cursor same,fun i _ => ?_⟩
  have cell := Prod.mk.inj (congrFun (congrArg Screen.cell same) (i/2))
  rcases Nat.even_or_odd' i with ⟨n,rfl | rfl⟩
  · have half : 2*n/2*2 = 2*n := by omega
    rw [half] at cell
    exact cell.1
  · have half : (2*n+1)/2*2+1 = 2*n+1 := by omega
    rw [half] at cell
    exact cell.2

end SoKernel.Console
