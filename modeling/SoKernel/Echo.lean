import SoKernel.Console
import SoKernel.Keyboard

/-!
Echo. The keyboard driver writes to the console what it adds to the line and takes
from it, so the line that is being typed stands on the screen just before the
cursor. A line is shorter than two rows: when the screen scrolls, its start stays
on the screen.
-/
namespace SoKernel.Echo
open SoKernel.Words SoKernel.Terminal SoKernel.Console SoKernel.Keyboard
set_option linter.unusedSimpArgs false

/-- A keyboard interrupt, with the echo. -/
def keyboard_interrupt (s : Line × Fb) (scan_code : Byte) : Line × Fb :=
  let handled := keyboard_handler s.1 scan_code
  (handled.1,if handled.2 = [] then s.2 else (fb_write s.2 handled.2).2)

/-- The attribute of every character that is written. -/
abbrev ATTRIBUTE : Byte := attribute_byte FB_DEFAULT_FG FB_DEFAULT_BG

/-- The line stands before the cursor of `w`, after what was there on `before`, `n`
    rows further up. -/
structure Echoed (before : Screen (Byte × Byte)) (kb : Line) (w : Screen (Byte × Byte)) (n : Nat) : Prop where
  unfinished : kb.kb_line_complete = false
  short : kb.kb_line_len < KB_LINE_MAX
  held : kb.kb_line_len ≤ w.cursor
  inside : w.cursor < FB_SIZE
  place : w.cursor+FB_COLS*n = before.cursor+kb.kb_line_len
  line : ∀ j < kb.kb_line_len, w.cell (w.cursor-kb.kb_line_len+j) = (kb.kb_line_buf j,ATTRIBUTE)
  rest : ∀ i < w.cursor-kb.kb_line_len, w.cell i = before.cell (i+FB_COLS*n)

section
variable {before w : Screen (Byte × Byte)} {kb : Line} {n : Nat}

/-- The line with one more character. -/
def append (kb : Line) (c : Byte) : Line :=
  { kb with kb_line_buf := Function.update kb.kb_line_buf kb.kb_line_len c, kb_line_len := kb.kb_line_len+1 }

/-- The character is on the screen, and the cursor after it. -/
theorem echoed_fill (echoed : Echoed before kb w n) (c : Byte) :
    (∀ j < kb.kb_line_len+1, (w.fill w.cursor (c,ATTRIBUTE)).cell (w.cursor-kb.kb_line_len+j) =
        ((append kb c).kb_line_buf j,ATTRIBUTE)) ∧
      ∀ i < w.cursor-kb.kb_line_len, (w.fill w.cursor (c,ATTRIBUTE)).cell i = before.cell (i+FB_COLS*n) := by
  have held := echoed.held
  refine ⟨?_,?_⟩
  · intro j inLine
    simp only [Screen.fill,append]
    by_cases last : j = kb.kb_line_len
    · rw [last,Nat.sub_add_cancel held,Function.update_self,Function.update_self]
    · rw [Function.update_of_ne (by omega),Function.update_of_ne last,echoed.line j (by omega)]
  · intro i low
    simp only [Screen.fill]
    rw [Function.update_of_ne (by omega),echoed.rest i low]

theorem echoed_put (echoed : Echoed before kb w n) (c : Byte) (room : kb.kb_line_len < KB_LINE_MAX-1) :
    ∃ n', Echoed before (append kb c) (w.write FB_COLS FB_ROWS blank (.put (c,ATTRIBUTE))) n' := by
  have held := echoed.held
  have inside := echoed.inside
  have place := echoed.place
  obtain ⟨line,rest⟩ := echoed_fill echoed c
  have sizes : FB_SIZE = 2000 ∧ FB_COLS = 80 ∧ FB_ROWS*FB_COLS = 2000 ∧ (FB_ROWS-1)*FB_COLS = 1920 ∧ KB_LINE_MAX = 128 := by
    decide
  rw [Screen.write]
  by_cases last : w.cursor+1 = FB_SIZE
  · -- The screen scrolls, and the line moves up with the rest.
    refine ⟨n+1,?_⟩
    have next : FB_COLS*(n+1) = FB_COLS*n+80 := Nat.mul_succ FB_COLS n
    rw [Screen.follow,if_pos (show FB_ROWS*FB_COLS ≤ w.cursor+1 by omega)]
    have moved : ∀ i < 1920, (Screen.scroll FB_COLS FB_ROWS blank
        { w.fill w.cursor (c,ATTRIBUTE) with cursor := w.cursor+1 }).cell i =
          (w.fill w.cursor (c,ATTRIBUTE)).cell (i+80) := fun i below => if_pos below
    constructor
    case unfinished => exact echoed.unfinished
    case short => change kb.kb_line_len+1 < KB_LINE_MAX; omega
    case held => change kb.kb_line_len+1 ≤ 1920; omega
    case inside => change 1920 < FB_SIZE; omega
    case place => change 1920+FB_COLS*(n+1) = before.cursor+(kb.kb_line_len+1); omega
    case line =>
      intro j inLine
      change j < kb.kb_line_len+1 at inLine
      change Screen.cell _ (1920-(kb.kb_line_len+1)+j) = _
      rw [moved _ (by omega),← line j inLine]
      congr 1
      omega
    case rest =>
      intro i low
      change i < 1920-(kb.kb_line_len+1) at low
      rw [moved _ (by omega),rest (i+80) (by omega)]
      congr 1
      omega
  · refine ⟨n,?_⟩
    rw [follow_inside (show w.cursor+1 < FB_ROWS*FB_COLS by omega)]
    constructor
    case unfinished => exact echoed.unfinished
    case short => change kb.kb_line_len+1 < KB_LINE_MAX; omega
    case held => change kb.kb_line_len+1 ≤ w.cursor+1; omega
    case inside => change w.cursor+1 < FB_SIZE; omega
    case place => change w.cursor+1+FB_COLS*n = before.cursor+(kb.kb_line_len+1); omega
    case line =>
      intro j inLine
      change j < kb.kb_line_len+1 at inLine
      change (w.fill w.cursor (c,ATTRIBUTE)).cell (w.cursor+1-(kb.kb_line_len+1)+j) = _
      rw [← line j inLine]
      congr 1
      omega
    case rest =>
      intro i low
      change i < w.cursor+1-(kb.kb_line_len+1) at low
      exact rest i (by omega)

theorem echoed_back (echoed : Echoed before kb w n) (some : 0 < kb.kb_line_len) :
    Echoed before { kb with kb_line_len := kb.kb_line_len-1 } (w.write FB_COLS FB_ROWS blank .back) n := by
  have held := echoed.held
  have inside := echoed.inside
  have place := echoed.place
  have short := echoed.short
  rw [Screen.write,if_pos (by omega)]
  constructor
  case unfinished => exact echoed.unfinished
  case short => change kb.kb_line_len-1 < KB_LINE_MAX; omega
  case held => change kb.kb_line_len-1 ≤ w.cursor-1; omega
  case inside => change w.cursor-1 < FB_SIZE; omega
  case place => change w.cursor-1+FB_COLS*n = before.cursor+(kb.kb_line_len-1); omega
  case line =>
    intro j inLine
    change j < kb.kb_line_len-1 at inLine
    change Function.update w.cell (w.cursor-1) blank (w.cursor-1-(kb.kb_line_len-1)+j) = _
    rw [Function.update_of_ne (by omega),← echoed.line j (by omega)]
    congr 1
    omega
  case rest =>
    intro i low
    change i < w.cursor-1-(kb.kb_line_len-1) at low
    change Function.update w.cell (w.cursor-1) blank i = _
    rw [Function.update_of_ne (by omega),echoed.rest i (by omega)]

end

/-- The scan code of Enter. -/
def ENTER : Byte := 0x1C#8

theorem newline_enter {scan_code : Byte} (newline : scancode_to_ascii scan_code = 10#8) : scan_code = ENTER := by
  have table : ∀ n < 256, scancode_to_ascii (BitVec.ofNat 8 n) = 10#8 → n = 28 := by decide +kernel
  have found := table scan_code.toNat scan_code.isLt (by simpa using newline)
  exact BitVec.eq_of_toNat_eq found

/-- Every key but Enter keeps line and screen together. -/
theorem echoed_key {before : Screen (Byte × Byte)} {s : Line × Fb} {n : Nat} (echoed : Echoed before s.1 (screen s.2) n)
    {scan_code : Byte} (notEnter : scan_code ≠ ENTER) :
    ∃ n', Echoed before (keyboard_interrupt s scan_code).1 (screen (keyboard_interrupt s scan_code).2) n' := by
  have written : ∀ c, screen (fb_write s.2 [c]).2 = (screen s.2).write FB_COLS FB_ROWS blank (glyph c) := by
    intro c
    simp only [fb_write,screen_move_cursor,List.foldl_cons,List.foldl_nil]
    exact screen_write_byte echoed.inside c
  rw [keyboard_interrupt,keyboard_handler]
  by_cases released : scan_code &&& 0x80#8 ≠ 0#8
  · simp only [if_pos released]
    exact ⟨n,echoed⟩
  by_cases noEntry : scancode_to_ascii scan_code = 0#8
  · simp only [if_neg released,if_pos noEntry]
    exact ⟨n,echoed⟩
  have notNewline : scancode_to_ascii scan_code ≠ 10#8 := fun newline => notEnter (newline_enter newline)
  have unfinished : ¬ s.1.kb_line_complete = true := by simp [echoed.unfinished]
  simp only [if_neg released,if_neg noEntry,if_neg unfinished,if_neg notNewline]
  by_cases back : scancode_to_ascii scan_code = 8#8
  · simp only [if_pos back]
    by_cases some : 0 < s.1.kb_line_len
    · simp only [if_pos some,List.cons_ne_nil,if_false,written]
      exact ⟨n,echoed_back echoed some⟩
    · simp only [if_neg some,if_true]
      exact ⟨n,echoed⟩
  · simp only [if_neg back]
    by_cases room : s.1.kb_line_len < KB_LINE_MAX-1
    · simp only [if_pos room,List.cons_ne_nil,if_false,written,glyph,if_neg back,if_neg notNewline]
      exact echoed_put echoed _ room
    · simp only [if_neg room,if_true]
      exact ⟨n,echoed⟩

theorem echoed_keys {before : Screen (Byte × Byte)} {s : Line × Fb} {n : Nat} (echoed : Echoed before s.1 (screen s.2) n)
    {scan_codes : List Byte} (noEnter : ENTER ∉ scan_codes) :
    ∃ n', Echoed before (scan_codes.foldl keyboard_interrupt s).1 (screen (scan_codes.foldl keyboard_interrupt s).2) n' := by
  induction scan_codes generalizing s n with
  | nil => exact ⟨n,echoed⟩
  | cons scan_code rest ih =>
    rw [List.mem_cons,not_or] at noEnter
    obtain ⟨n',echoed'⟩ := echoed_key echoed (Ne.symm noEnter.1)
    exact ih echoed' noEnter.2

/-- While a line is being typed, its characters are the cells before the cursor, and
    before them stands what stood there when it was begun, as many rows further up as
    the screen has scrolled. When Enter is pressed, this is the line that is read. -/
theorem echo_shows_line (kb : Line) (s : Fb) (inside : s.fb_cursor < 2000) (nothing : kb.kb_line_len = 0)
    (unfinished : kb.kb_line_complete = false) (scan_codes : List Byte) (noEnter : ENTER ∉ scan_codes) :
    let r := scan_codes.foldl keyboard_interrupt (kb,s)
    let len := r.1.kb_line_len
    let start := r.2.fb_cursor-len
    len ≤ r.2.fb_cursor ∧ r.2.fb_cursor < 2000 ∧
      (∀ j < len, (screen r.2).cell (start+j) = (r.1.kb_line_buf j,ATTRIBUTE)) ∧
      (∃ scrolls, start+80*scrolls = s.fb_cursor ∧ ∀ i < start, (screen r.2).cell i = (screen s).cell (i+80*scrolls)) ∧
      ∀ max : Word, (keyboard_read_line (keyboard_handler r.1 ENTER).1 max).1 =
        (List.range (min max.toNat len)).map (fun j => r.2.fb ((start+j)*2)) := by
  intro r len start
  have begins : Echoed (screen s) kb (screen s) 0 := by
    constructor
    case unfinished => exact unfinished
    case short => rw [nothing]; decide
    case held => rw [nothing]; exact Nat.zero_le _
    case inside => exact inside
    case place => rw [nothing]; rfl
    case line => intro j below; omega
    case rest => exact fun i _ => rfl
  obtain ⟨scrolls,echoed⟩ := echoed_keys (s := (kb,s)) begins noEnter
  have place := echoed.place
  have held := echoed.held
  refine ⟨held,echoed.inside,echoed.line,⟨scrolls,?_,echoed.rest⟩,?_⟩
  · change r.2.fb_cursor+80*scrolls = s.fb_cursor+len at place
    change len ≤ r.2.fb_cursor at held
    omega
  · intro max
    have enter : (keyboard_handler r.1 ENTER).1 = { r.1 with kb_line_complete := true } := by
      have notYet : ¬ r.1.kb_line_complete = true := by simp [r,echoed.unfinished]
      simp only [keyboard_handler,if_neg notYet]
      rfl
    have cut : (if max.toNat < len then max.toNat else len) = min max.toNat len := by split <;> omega
    rw [enter,keyboard_read_line,cut]
    refine List.map_congr_left (fun j below => ?_)
    rw [List.mem_range] at below
    have inLine : j < len := by omega
    exact (Prod.mk.inj (echoed.line j inLine)).1.symm

/-- The letters a and b, typed from the last cell of the screen on. -/
theorem echo_shows_line_ab :
    let r := [0x1E#8,0x30#8].foldl keyboard_interrupt (empty,⟨fun _ => 0#8,1999,[],[]⟩)
    let start := r.2.fb_cursor-r.1.kb_line_len
    (screen r.2).cell (start+0) = (0x61#8,ATTRIBUTE) ∧ (screen r.2).cell (start+1) = (0x62#8,ATTRIBUTE) := by
  obtain ⟨_,_,line,_⟩ := echo_shows_line empty ⟨fun _ => 0#8,1999,[],[]⟩ (by decide) rfl rfl [0x1E#8,0x30#8] (by decide)
  have first := line 0 (by decide)
  have second := line 1 (by decide)
  exact ⟨first,second⟩

end SoKernel.Echo
