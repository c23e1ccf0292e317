import SoKernel.Pages

/-!
Stacks of words that grow downwards in a page. A stack position is the number of
a word of the page; the words from there to the end of the page are what has been
pushed, and what is below is free for use.
-/
namespace SoKernel.Stack
open SoKernel.Words SoKernel.Pages
set_option linter.unusedSimpArgs false

/-- The number of the word of its page that an address is in. -/
def wordOf (a : Word) : Nat := a.toNat % 4096/4

theorem inWord_wordOf {p : Word} (aligned : PageAligned p) {i : Nat} (inside : i < 1024) {a : Word} :
    InWord (slot p i) a ↔ pageOf a = pageOf p ∧ wordOf a = i := by
  have value := slot_toNat aligned inside
  simp only [PageAligned] at aligned
  rw [inWord_aligned (by rw [value]; omega),value]
  simp only [pageOf,wordOf]
  omega

theorem wordOf_slot {p : Word} (aligned : PageAligned p) {j : Nat} (inside : j < 1024) : wordOf (slot p j) = j :=
  ((inWord_wordOf aligned inside).mp (.inl rfl)).2

/-- The words of a page are in the order of their addresses. -/
theorem le_wordOf {p : Word} (aligned : PageAligned p) {j : Nat} (inside : j < 1024) {a : Word} (page : pageOf a = pageOf p)
    {n : Nat} (above : (slot p j).toNat+4*n ≤ a.toNat) : j+n ≤ wordOf a := by
  rw [slot_toNat aligned inside] at above
  simp only [PageAligned] at aligned
  simp only [pageOf] at page
  simp only [wordOf]
  omega

/-- A byte stored in one word of a page leaves the other words alone. -/
theorem entry_write8 {p : Word} (aligned : PageAligned p) {i j : Nat} (insideI : i < 1024) (insideJ : j < 1024)
    (other : j ≠ i) (m : Memory) (v : Byte) : entry (write8 m (slot p i) v) p j = entry m p j := by
  refine read32_congr (fun a inWord => if_neg (fun same => other ?_))
  have inJ := ((inWord_wordOf aligned insideJ).mp inWord).2
  rw [same,wordOf_slot aligned insideI] at inJ
  exact inJ.symm

theorem slot_add (p : Word) (i n : Nat) : slot p i+BitVec.ofNat 32 (4*n) = slot p (i+n) := by
  rw [slot,slot,BitVec.add_assoc,← BitVec.ofNat_add,← Nat.mul_add]

theorem slot_pred (p : Word) (i : Nat) : slot p (i+1)-4#32 = slot p i := by
  rw [← slot_add p i 1]
  exact BitVec.add_sub_cancel _ _

/-- The words of a page from word `j` on. -/
def Stacked (m : Memory) (p : Word) : Nat → List Word → Prop
  | _, [] => True
  | j, w :: rest => entry m p j = w ∧ Stacked m p (j+1) rest

section
variable {m n : Memory} {p : Word} {j : Nat}

theorem stacked_append {xs ys : List Word} :
    Stacked m p j (xs++ys) ↔ Stacked m p j xs ∧ Stacked m p (j+xs.length) ys := by
  induction xs generalizing j with
  | nil => simp [Stacked]
  | cons x rest ih =>
    rw [List.cons_append,Stacked,Stacked,ih,List.length_cons,and_assoc,Nat.add_assoc,Nat.add_comm 1]

/-- Only the words themselves matter. -/
theorem stacked_congr {ws : List Word} (aligned : PageAligned p) (fits : j+ws.length ≤ 1024)
    (same : ∀ a, pageOf a = pageOf p → j ≤ wordOf a → wordOf a < j+ws.length → n a = m a) (stacked : Stacked m p j ws) :
    Stacked n p j ws := by
  induction ws generalizing j with
  | nil => trivial
  | cons w rest ih =>
    simp only [List.length_cons] at fits same
    refine ⟨?_,ih (by omega) (fun a page low high => same a page (by omega) (by omega)) stacked.2⟩
    rw [← stacked.1]
    refine read32_congr (fun a inWord => ?_)
    obtain ⟨page,here⟩ := (inWord_wordOf aligned (by omega)).mp inWord
    exact same a page (by omega) (by omega)

end

/-- Memory and stack pointer after words have been pushed one by one. -/
def push_all (m : Memory) (sp : Word) : List Word → Memory × Word
  | [] => (m,sp)
  | w :: rest => push_all (write32 m (sp-4#32) w) (sp-4#32) rest

theorem push_all_append (m : Memory) (sp : Word) (xs ys : List Word) :
    push_all m sp (xs++ys) = push_all (push_all m sp xs).1 (push_all m sp xs).2 ys := by
  induction xs generalizing m sp with
  | nil => rfl
  | cons x rest ih => exact ih _ _

/-- The bytes of a page outside its words `low` to `high`, and all other pages. -/
def Apart (p : Word) (low high : Nat) (a : Word) : Prop := pageOf a = pageOf p → wordOf a < low ∨ high ≤ wordOf a

/-- Pushed words lie on top of the stack, the last one lowest. -/
theorem push_all_slot {p : Word} (aligned : PageAligned p) (m : Memory) (ws : List Word) {j : Nat}
    (fits : j+ws.length ≤ 1024) :
    (push_all m (slot p (j+ws.length)) ws).2 = slot p j ∧
      Stacked (push_all m (slot p (j+ws.length)) ws).1 p j ws.reverse ∧
      ∀ a, Apart p j (j+ws.length) a → (push_all m (slot p (j+ws.length)) ws).1 a = m a := by
  induction ws generalizing m with
  | nil => exact ⟨rfl,trivial,fun _ _ => rfl⟩
  | cons w rest ih =>
    simp only [List.length_cons] at fits ⊢
    rw [push_all,← Nat.add_assoc,slot_pred]
    obtain ⟨pointer,stacked,off⟩ := ih (write32 m (slot p (j+rest.length)) w) (by omega)
    have top : ∀ a, InWord (slot p (j+rest.length)) a ↔ pageOf a = pageOf p ∧ wordOf a = j+rest.length :=
      fun a => inWord_wordOf aligned (by omega)
    refine ⟨pointer,?_,?_⟩
    · rw [List.reverse_cons,stacked_append,List.length_reverse]
      refine ⟨stacked,?_,trivial⟩
      -- The first word is above all others.
      rw [entry,read32_congr (fun a inWord => off a (fun _ => .inr (by rw [((top a).mp inWord).2]))),read32_write32]
    · intro a apart
      rw [off a (fun page => (apart page).imp_right (by omega)),
        write32_outside (fun inWord => by have := (top a).mp inWord; have := apart this.1; omega)]

end SoKernel.Stack
