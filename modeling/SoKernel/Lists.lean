import Mathlib.Data.Nat.Find

/-!
Lists, as histories that grow at their end and as texts that are made of lines.
-/
namespace SoKernel.Lists

/-! ### Histories -/

/-- Splitting a history that has been made longer by one. -/
theorem split_append {α : Type*} {events before after : List α} {event last : α}
    (same : events ++ [last] = before ++ event :: after) :
    (∃ rest, events = before ++ event :: rest) ∨ (events = before ∧ event = last) := by
  rcases List.eq_nil_or_concat after with rfl | ⟨rest,final,rfl⟩
  · have parts := List.append_inj' same rfl
    exact .inr ⟨parts.1,by simpa using parts.2.symm⟩
  · refine .inl ⟨rest,?_⟩
    have shifted : events ++ [last] = (before ++ event :: rest) ++ [final] := by simpa using same
    exact (List.append_inj' shifted rfl).1

/-! ### Text in lines -/

section Lines
variable {α : Type} {sep : α}

/-- Each part is followed by the separator. -/
def joined (sep : α) (parts : List (List α)) : List α := parts.flatMap (· ++ [sep])

/-- The largest number of leading parts that leave room for one more element. -/
def fitting (sep : α) (parts : List (List α)) (room : Nat) : Nat :=
  Nat.findGreatest (fun k => (joined sep (parts.take k)).length < room) parts.length

theorem joined_next {parts : List (List α)} {part : List α} {i : Nat} (here : parts[i]? = some part) :
    joined sep (parts.take (i+1)) = joined sep (parts.take i)++part++[sep] := by
  rw [List.take_add_one,here,joined,List.flatMap_append]
  simp [joined]

theorem joined_take_le (parts : List (List α)) {i k : Nat} (less : i ≤ k) :
    (joined sep (parts.take i)).length ≤ (joined sep (parts.take k)).length := by
  obtain ⟨more,same⟩ := List.take_prefix_take_left (l := parts) less
  rw [← same,joined,joined,List.flatMap_append,List.length_append]
  omega

/-- The first part that does not fit decides. -/
theorem fitting_eq {parts : List (List α)} {room k : Nat} (inside : k ≤ parts.length)
    (fits : (joined sep (parts.take k)).length < room)
    (last : k = parts.length ∨ ¬ (joined sep (parts.take (k+1))).length < room) : fitting sep parts room = k := by
  refine Nat.findGreatest_eq_iff.mpr ⟨inside,fun _ => fits,fun n more within longer => ?_⟩
  rcases last with rfl | full
  · omega
  · exact full (lt_of_le_of_lt (joined_take_le parts more) longer)

theorem fitting_largest (sep : α) (parts : List (List α)) {room : Nat} (positive : 0 < room) :
    (joined sep (parts.take (fitting sep parts room))).length < room ∧
      ∀ k, fitting sep parts room < k → k ≤ parts.length → room ≤ (joined sep (parts.take k)).length := by
  obtain ⟨_,fits,greatest⟩ := (Nat.findGreatest_eq_iff (P := fun k => (joined sep (parts.take k)).length < room)).mp
    (rfl : _ = fitting sep parts room)
  refine ⟨?_,fun k more inside => Nat.le_of_not_lt (greatest more inside)⟩
  by_cases none : fitting sep parts room = 0
  · rw [none]
    exact positive
  · exact fits none

variable [DecidableEq α]

theorem splitOn_append_cons (before after : List α) :
    (before++sep :: after).splitOn sep = before.splitOn sep++after.splitOn sep := by
  rw [List.splitOn_eq_splitOnP,List.splitOn_eq_splitOnP,List.splitOn_eq_splitOnP]
  exact List.splitOnP_append_cons before after (by simp)

theorem splitOn_joined (parts : List (List α)) :
    (joined sep parts).splitOn sep = parts.flatMap (List.splitOn sep)++[[]] := by
  induction parts with
  | nil => rfl
  | cons part rest ih =>
    have first : joined sep (part :: rest) = part++sep :: joined sep rest := by simp [joined]
    rw [first,splitOn_append_cons,ih,List.flatMap_cons,List.append_assoc]

/-- Splitting gives the parts back exactly when none of them has a separator. -/
theorem splitOn_joined_iff (parts : List (List α)) :
    (joined sep parts).splitOn sep = parts++[[]] ↔ ∀ part ∈ parts, sep ∉ part := by
  rw [splitOn_joined,List.append_cancel_right_eq]
  constructor
  · intro same part member inside
    -- A part with a separator gives two pieces, and no part gives none.
    have total : (parts.map fun part => (part.splitOn sep).length).sum = parts.length := by
      rw [← List.length_flatMap,same]
    have pieces : ∀ part : List α, 1 ≤ (part.splitOn sep).length := fun part =>
      List.length_pos_iff.mpr (List.splitOn_ne_nil sep part)
    have two : 2 ≤ (part.splitOn sep).length := by
      obtain ⟨before,after,rfl⟩ := List.append_of_mem inside
      have := pieces before
      have := pieces after
      rw [splitOn_append_cons,List.length_append]
      omega
    have more : parts.length < (parts.map fun part => (part.splitOn sep).length).sum := by
      obtain ⟨front,back,rfl⟩ := List.append_of_mem member
      have least : ∀ some : List (List α), some.length ≤ (some.map fun part => (part.splitOn sep).length).sum := by
        intro some
        induction some with
        | nil => simp
        | cons first rest ih =>
          have := pieces first
          simp only [List.length_cons,List.map_cons,List.sum_cons]
          omega
      have := least front
      have := least back
      simp only [List.length_append,List.length_cons,List.map_append,List.map_cons,List.sum_append,List.sum_cons]
      omega
    omega
  · intro clean
    induction parts with
    | nil => rfl
    | cons part rest ih =>
      rw [List.flatMap_cons,List.splitOn_eq_singleton (clean part List.mem_cons_self),
        ih (fun other member => clean other (List.mem_cons_of_mem part member))]
      rfl

end Lines

end SoKernel.Lists
