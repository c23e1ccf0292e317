import Mathlib

/-!
Terminals. What has been written to a terminal is a grid of rows without end, of
which a few are on display. A screen has only the cells on display, and makes room
by moving them all up a row. The screen shows the grid, provided that nothing has
been written below the display yet.
-/
namespace SoKernel.Terminal
set_option linter.unusedSimpArgs false

/-- What a character does. -/
inductive Glyph (α : Type*)
  | back
  | newline
  | put (a : α)

/-- The rows written so far, the place of the next character and the first row on
    display. -/
structure Grid (α : Type*) where
  cell : Nat → Nat → α
  row : Nat
  col : Nat
  top : Nat

/-- The cells on display, in reading order, and the place of the next character. -/
structure Screen (α : Type*) where
  cell : Nat → α
  cursor : Nat

section
variable {α : Type*} (cols rows : Nat) (blank : α)

namespace Grid

def fresh : Grid α := ⟨fun _ _ => blank,0,0,0⟩

def fill (g : Grid α) (a : α) : Grid α :=
  { g with cell := Function.update g.cell g.row (Function.update (g.cell g.row) g.col a) }

/-- The next place, at the start of the next row after the last column. -/
def forward (g : Grid α) : Grid α :=
  if g.col+1 = cols then { g with row := g.row+1, col := 0 } else { g with col := g.col+1 }

def backward (g : Grid α) : Grid α :=
  if g.col = 0 then { g with row := g.row-1, col := cols-1 } else { g with col := g.col-1 }

/-- The display moves on by a row when the place has left it. -/
def follow (g : Grid α) : Grid α := if g.row = g.top+rows then { g with top := g.top+1 } else g

def write (g : Grid α) : Glyph α → Grid α
  | .back => if g.row = g.top ∧ g.col = 0 then g else (g.backward cols).fill blank
  | .newline => follow rows { g with row := g.row+1, col := 0 }
  | .put a => follow rows ((g.fill a).forward cols)

/-- The place is on display, and there is nothing below the display. -/
structure Tidy (g : Grid α) : Prop where
  inRow : g.col < cols
  started : g.top ≤ g.row
  onDisplay : g.row < g.top+rows
  below : ∀ r, g.top+rows ≤ r → ∀ c, g.cell r c = blank

end Grid

namespace Screen

/-- Every row moves up, and the last one is cleared. -/
def scroll (s : Screen α) : Screen α where
  cell := fun i =>
    if i < (rows-1)*cols then s.cell (i+cols) else if i < rows*cols then blank else s.cell i
  cursor := (rows-1)*cols

def follow (s : Screen α) : Screen α := if rows*cols ≤ s.cursor then s.scroll cols rows blank else s

def fill (s : Screen α) (i : Nat) (a : α) : Screen α := { s with cell := Function.update s.cell i a }

def write (s : Screen α) : Glyph α → Screen α
  | .back => if 0 < s.cursor then fill { s with cursor := s.cursor-1 } (s.cursor-1) blank else s
  | .newline => follow cols rows blank { s with cursor := s.cursor+(cols-s.cursor % cols) }
  | .put a => follow cols rows blank { s.fill s.cursor a with cursor := s.cursor+1 }

end Screen

/-- The screen shows the rows of the grid that are on display. -/
structure Shows (s : Screen α) (g : Grid α) : Prop where
  cursor : s.cursor+g.top*cols = g.row*cols+g.col
  cells : ∀ i < rows*cols, s.cell i = g.cell (g.top+i/cols) (i % cols)

end

section
variable {α : Type*} {cols rows : Nat} {blank : α} {s : Screen α} {g : Grid α}

/-- The cursor, by rows and columns. -/
theorem cursor_eq (shows : Shows cols rows s g) (tidy : g.Tidy cols rows blank) :
    s.cursor = (g.row-g.top)*cols+g.col := by
  have low := Nat.mul_le_mul_right cols tidy.started
  have same := shows.cursor
  rw [Nat.sub_mul]
  omega

theorem cursor_lt (shows : Shows cols rows s g) (tidy : g.Tidy cols rows blank) : s.cursor < rows*cols := by
  have started := tidy.started
  have onDisplay := tidy.onDisplay
  have inRow := tidy.inRow
  have last := Nat.mul_le_mul_right cols (show g.row-g.top+1 ≤ rows by omega)
  rw [Nat.add_mul] at last
  rw [cursor_eq shows tidy]
  omega

/-- A place on display and its number. -/
theorem place_iff {i r c : Nat} (inRow : c < cols) : i = r*cols+c ↔ i/cols = r ∧ i % cols = c := by
  have split := Nat.div_add_mod' i cols
  constructor
  · rintro rfl
    refine ⟨?_,?_⟩
    · rw [Nat.add_comm,Nat.add_mul_div_right _ _ (by omega),Nat.div_eq_of_lt inRow,Nat.zero_add]
    · rw [Nat.add_comm,Nat.add_mul_mod_self_right,Nat.mod_eq_of_lt inRow]
  · rintro ⟨rfl,rfl⟩
    exact split.symm

/-- A cell that is filled on the screen and in the grid. -/
theorem shows_fill (shows : Shows cols rows s g) (tidy : g.Tidy cols rows blank) (a : α) :
    Shows cols rows (s.fill s.cursor a) (g.fill a) := by
  refine ⟨shows.cursor,?_⟩
  intro i inside
  have here : i = s.cursor ↔ g.top+i/cols = g.row ∧ i % cols = g.col := by
    have started := tidy.started
    rw [cursor_eq shows tidy,place_iff tidy.inRow]
    omega
  simp only [Screen.fill,Grid.fill]
  by_cases same : i = s.cursor
  · obtain ⟨row,col⟩ := here.mp same
    rw [same,Function.update_self,← same,row,Function.update_self,col,Function.update_self]
  · rw [Function.update_of_ne same,shows.cells i inside]
    by_cases row : g.top+i/cols = g.row
    · rw [row,Function.update_self,Function.update_of_ne (fun col => same (here.mpr ⟨row,col⟩))]
    · rw [Function.update_of_ne row]

theorem tidy_fill (tidy : g.Tidy cols rows blank) (a : α) : (g.fill a).Tidy cols rows blank := by
  refine ⟨tidy.inRow,tidy.started,tidy.onDisplay,?_⟩
  intro r low c
  have onDisplay := tidy.onDisplay
  have other : r ≠ g.row := by
    change g.top+rows ≤ r at low
    omega
  simp only [Grid.fill,Function.update_of_ne other]
  exact tidy.below r low c

theorem follow_inside (inside : s.cursor < rows*cols) : s.follow cols rows blank = s := by
  rw [Screen.follow,if_neg (by omega)]

/-- A character leaves the cursor on the screen. -/
theorem write_cursor_lt (posCols : 0 < cols) (pos : 0 < rows) (inside : s.cursor < rows*cols) (glyph : Glyph α) :
    (s.write cols rows blank glyph).cursor < rows*cols := by
  have lastRow : (rows-1)*cols < rows*cols := Nat.mul_lt_mul_of_pos_right (by omega) posCols
  have follow : ∀ t : Screen α, (t.follow cols rows blank).cursor < rows*cols := by
    intro t
    rw [Screen.follow]
    split
    · exact lastRow
    · omega
  cases glyph with
  | back =>
    rw [Screen.write]
    split
    · change s.cursor-1 < rows*cols
      omega
    · exact inside
  | newline => exact follow _
  | put a => exact follow _

/-- The next place is on display, or at the start of the first row below it. -/
theorem follow_shows (pos : 0 < rows) {t : Screen α} {h : Grid α} (inRow : h.col < cols) (started : h.top ≤ h.row)
    (edge : h.row < h.top+rows ∨ h.row = h.top+rows ∧ h.col = 0)
    (below : ∀ r, h.top+rows ≤ r → ∀ c, h.cell r c = blank) (shows : Shows cols rows t h) :
    Shows cols rows (t.follow cols rows blank) (h.follow rows) ∧ (h.follow rows).Tidy cols rows blank := by
  have cursor := shows.cursor
  rcases edge with onDisplay | ⟨left,first⟩
  · have tidy : h.Tidy cols rows blank := ⟨inRow,started,onDisplay,below⟩
    have lt := cursor_lt shows tidy
    rw [follow_inside lt,Grid.follow,if_neg (by omega)]
    exact ⟨shows,tidy⟩
  · obtain ⟨n,rfl⟩ : ∃ n, rows = n+1 := ⟨rows-1,by omega⟩
    rw [left,first,Nat.add_mul] at cursor
    rw [Screen.follow,if_pos (by omega),Grid.follow,if_pos left]
    refine ⟨⟨?_,?_⟩,⟨inRow,?_,?_,?_⟩⟩
    · simp only [Screen.scroll,left,first,Nat.add_sub_cancel]
      ring
    · intro i inside
      have up : (i+cols)/cols = i/cols+1 ∧ (i+cols) % cols = i % cols :=
        ⟨Nat.add_div_right _ (by omega),Nat.add_mod_right ..⟩
      simp only [Screen.scroll,Nat.add_sub_cancel]
      by_cases upper : i < n*cols
      · rw [if_pos upper,shows.cells _ (by rw [Nat.add_mul]; omega),up.1,up.2,Nat.add_assoc,Nat.add_comm 1]
      · have last : n ≤ i/cols := (Nat.le_div_iff_mul_le (by omega)).mpr (by omega)
        rw [if_neg upper,if_pos inside,below _ (by omega)]
    · change h.top+1 ≤ h.row
      omega
    · change h.row < h.top+1+(n+1)
      omega
    · intro r low c
      change h.top+1+(n+1) ≤ r at low
      exact below r (by omega) c

theorem backward_shows (shows : Shows cols rows s g) (tidy : g.Tidy cols rows blank)
    (notFirst : ¬ (g.row = g.top ∧ g.col = 0)) :
    0 < s.cursor ∧ Shows cols rows { s with cursor := s.cursor-1 } (g.backward cols) ∧
      (g.backward cols).Tidy cols rows blank := by
  have cursor := shows.cursor
  have inRow := tidy.inRow
  have started := tidy.started
  have onDisplay := tidy.onDisplay
  by_cases first : g.col = 0
  · have up : (g.row-1)*cols+cols = g.row*cols := by
      rw [← Nat.succ_mul,Nat.succ_eq_add_one,Nat.sub_add_cancel (by omega)]
    have low := Nat.mul_le_mul_right cols (show g.top ≤ g.row-1 by omega)
    rw [Grid.backward,if_pos first]
    refine ⟨by omega,⟨?_,shows.cells⟩,⟨?_,?_,?_,tidy.below⟩⟩
    · change s.cursor-1+g.top*cols = (g.row-1)*cols+(cols-1)
      omega
    · change cols-1 < cols
      omega
    · change g.top ≤ g.row-1
      omega
    · change g.row-1 < g.top+rows
      omega
  · have low := Nat.mul_le_mul_right cols started
    rw [Grid.backward,if_neg first]
    refine ⟨by omega,⟨?_,shows.cells⟩,⟨?_,started,onDisplay,tidy.below⟩⟩
    · change s.cursor-1+g.top*cols = g.row*cols+(g.col-1)
      omega
    · change g.col-1 < cols
      omega

/-- The cursor goes to the start of the next row. -/
theorem next_row_shows (pos : 0 < rows) (shows : Shows cols rows s g) (tidy : g.Tidy cols rows blank) {cursor : Nat}
    (place : cursor+g.top*cols = (g.row+1)*cols) :
    Shows cols rows (Screen.follow cols rows blank { s with cursor := cursor }) ({ g with row := g.row+1, col := 0 }.follow rows) ∧
      ({ g with row := g.row+1, col := 0 }.follow rows).Tidy cols rows blank := by
  have inRow := tidy.inRow
  have started := tidy.started
  have onDisplay := tidy.onDisplay
  refine follow_shows pos ?_ ?_ ?_ tidy.below ⟨place,shows.cells⟩
  · change 0 < cols
    omega
  · change g.top ≤ g.row+1
    omega
  · change g.row+1 < g.top+rows ∨ g.row+1 = g.top+rows ∧ 0 = 0
    omega

theorem forward_shows (pos : 0 < rows) (shows : Shows cols rows s g) (tidy : g.Tidy cols rows blank) :
    Shows cols rows (Screen.follow cols rows blank { s with cursor := s.cursor+1 }) ((g.forward cols).follow rows) ∧
      ((g.forward cols).follow rows).Tidy cols rows blank := by
  have cursor := shows.cursor
  have inRow := tidy.inRow
  have started := tidy.started
  have onDisplay := tidy.onDisplay
  rw [Grid.forward]
  by_cases last : g.col+1 = cols
  · rw [if_pos last]
    refine next_row_shows pos shows tidy ?_
    rw [Nat.add_mul]
    omega
  · rw [if_neg last]
    refine follow_shows pos ?_ started (.inl onDisplay) tidy.below ⟨?_,shows.cells⟩
    · change g.col+1 < cols
      omega
    · change s.cursor+1+g.top*cols = g.row*cols+(g.col+1)
      omega

theorem newline_shows (pos : 0 < rows) (shows : Shows cols rows s g) (tidy : g.Tidy cols rows blank) :
    Shows cols rows (s.write cols rows blank .newline) (g.write cols rows blank .newline) ∧
      (g.write cols rows blank .newline).Tidy cols rows blank := by
  have cursor := shows.cursor
  have inRow := tidy.inRow
  have column : s.cursor % cols = g.col := ((place_iff inRow).mp (cursor_eq shows tidy)).2
  refine next_row_shows pos shows tidy ?_
  rw [column,Nat.add_mul]
  omega

/-- Writing a character keeps the screen and the grid together. -/
theorem write_shows (pos : 0 < rows) (shows : Shows cols rows s g) (tidy : g.Tidy cols rows blank) (glyph : Glyph α) :
    Shows cols rows (s.write cols rows blank glyph) (g.write cols rows blank glyph) ∧
      (g.write cols rows blank glyph).Tidy cols rows blank := by
  cases glyph with
  | back =>
    by_cases first : g.row = g.top ∧ g.col = 0
    · have cursor := shows.cursor
      rw [first.1,first.2] at cursor
      rw [Screen.write,if_neg (by omega),Grid.write,if_pos first]
      exact ⟨shows,tidy⟩
    · obtain ⟨notZero,moved,stays⟩ := backward_shows shows tidy first
      rw [Screen.write,if_pos notZero,Grid.write,if_neg first]
      exact ⟨shows_fill moved stays blank,tidy_fill stays blank⟩
  | newline => exact newline_shows pos shows tidy
  | put a => exact forward_shows pos (shows_fill shows tidy a) (tidy_fill tidy a)

/-- A blank screen shows the fresh grid. -/
theorem fresh_shows (posCols : 0 < cols) (pos : 0 < rows) (cursor : s.cursor = 0) (cells : ∀ i < rows*cols, s.cell i = blank) :
    Shows cols rows s (Grid.fresh blank) ∧ (Grid.fresh blank).Tidy cols rows blank := by
  refine ⟨⟨?_,cells⟩,⟨posCols,le_refl _,?_,fun _ _ _ => rfl⟩⟩
  · simp [Grid.fresh,cursor]
  · simpa [Grid.fresh] using pos

end

end SoKernel.Terminal
