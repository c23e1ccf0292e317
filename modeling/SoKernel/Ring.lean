import SoKernel.Words
import Mathlib.Data.Finset.Sort
import Mathlib.Data.List.Rotate

/-!
Circular lists in address order. The addresses form a circle, and the successor
of an address in a set is the member met first when going up from it, so that no
case has to be made for the place where the order wraps around.
-/
namespace SoKernel.Ring
open SoKernel.Words
set_option linter.unusedSimpArgs false

/-- The number of addresses strictly between two, going up from the first; a full
    turn for an address and itself. -/
def gap (a b : Word) : Nat := (b-a-1#32).toNat

theorem gap_eq (a b : Word) :
    gap a b = if a.toNat < b.toNat then b.toNat-a.toNat-1 else b.toNat+2^32-a.toNat-1 := by
  have boundA := a.isLt
  have boundB := b.isLt
  simp only [gap,BitVec.toNat_sub,BitVec.toNat_ofNat]
  split <;> omega

theorem gap_lt (a b : Word) : gap a b < 2^32 := (b-a-1#32).isLt

/-- The member of a set that comes first after an address. -/
def IsNext (F : Finset Word) (a b : Word) : Prop := b ∈ F ∧ ∀ c ∈ F, gap a b ≤ gap a c

theorem gap_inj {a b c : Word} (same : gap a b = gap a c) : b = c := by
  have boundB := b.isLt
  have boundC := c.isLt
  rw [gap_eq,gap_eq] at same
  apply BitVec.eq_of_toNat_eq
  split at same <;> split at same <;> omega

/-- The way to a farther address goes on from a nearer one. -/
theorem gap_add {a b c : Word} (before : gap a b < gap a c) : gap a c = gap a b+1+gap b c := by
  have boundA := a.isLt
  have boundB := b.isLt
  have boundC := c.isLt
  simp only [gap_eq] at before ⊢
  split_ifs at before ⊢ <;> omega

theorem gap_self (a b : Word) : gap a b ≤ gap a a := by
  have boundA := a.isLt
  have boundB := b.isLt
  rw [gap_eq,gap_eq]
  split <;> split <;> omega

/-- The way to an address is one step longer than the gap before it. -/
theorem way_gap {a b : Word} (ne : b ≠ a) : (b-a).toNat = gap a b+1 := by
  have boundA := a.isLt
  have boundB := b.isLt
  have differ : b.toNat ≠ a.toNat := fun same => ne (BitVec.eq_of_toNat_eq same)
  rw [gap_eq,BitVec.toNat_sub]
  split_ifs <;> omega

/-- The rest of the way when one has gone on to a nearer address. -/
theorem way_after {a b n : Word} (near : gap a n ≤ gap a b) : (b-n).toNat+gap a n = gap a b := by
  have boundA := a.isLt
  have boundB := b.isLt
  have boundN := n.isLt
  simp only [gap_eq,BitVec.toNat_sub] at near ⊢
  split_ifs at near ⊢ <;> omega

/-- Two addresses split the circle into two arcs. -/
theorem gap_arcs {a b x : Word} (ne : a ≠ b) (first : gap a x < gap a b) : ¬ gap b x < gap b a := by
  have boundA := a.isLt
  have boundB := b.isLt
  have boundX := x.isLt
  have differ : a.toNat ≠ b.toNat := fun same => ne (BitVec.eq_of_toNat_eq same)
  rw [gap_eq,gap_eq] at first ⊢
  split at first <;> split at first <;> split <;> split <;> omega

/-- Up from one address and strictly before another, as addresses are compared. -/
theorem between_iff {a n x : Word} (notA : x ≠ a) (notN : x ≠ n) :
    (a < x ∧ x < n) ∨ (n ≤ a ∧ (a < x ∨ x < n)) ↔ gap a x < gap a n := by
  have boundA := a.isLt
  have boundN := n.isLt
  have boundX := x.isLt
  have differA : x.toNat ≠ a.toNat := fun same => notA (BitVec.eq_of_toNat_eq same)
  have differN : x.toNat ≠ n.toNat := fun same => notN (BitVec.eq_of_toNat_eq same)
  rw [gap_eq,gap_eq]
  simp only [BitVec.lt_def,BitVec.le_def]
  split <;> split <;> omega

section Members
variable {F : Finset Word} {a b c n x : Word}

theorem isNext_unique (first : IsNext F a b) (second : IsNext F a c) : b = c :=
  gap_inj (le_antisymm (first.2 c second.1) (second.2 b first.1))

/-- Only the single member of a set is its own successor. -/
theorem isNext_self (own : IsNext F a a) (inside : c ∈ F) : c = a :=
  gap_inj (le_antisymm (gap_self a c) (own.2 c inside))

theorem isNext_singleton (a : Word) : IsNext {a} a a := by
  refine ⟨by simp,?_⟩
  intro c inside
  rw [Finset.mem_singleton.mp inside]

/-- A member is the successor of one member only. -/
theorem isNext_inj (insideA : a ∈ F) (insideC : c ∈ F) (first : IsNext F a b) (second : IsNext F c b) : a = c := by
  by_contra differ
  have nearC := first.2 c insideC
  have nearA := second.2 a insideA
  rcases Nat.lt_or_eq_of_le nearC with before | same
  · rcases Nat.lt_or_eq_of_le nearA with after | same
    · exact gap_arcs differ before after
    · obtain rfl := gap_inj same
      exact differ (isNext_self first insideC).symm
  · obtain rfl := gap_inj same
    exact differ (isNext_self second insideA)

theorem isNext_insert (next : IsNext F a n) (before : gap a x < gap a n) : IsNext (insert x F) a x := by
  refine ⟨Finset.mem_insert_self x F,?_⟩
  intro c inside
  rcases Finset.mem_insert.mp inside with rfl | old
  · exact le_refl _
  · exact le_of_lt (lt_of_lt_of_le before (next.2 c old))

theorem isNext_inserted (next : IsNext F a n) (before : gap a x < gap a n) : IsNext (insert x F) x n := by
  refine ⟨Finset.mem_insert_of_mem next.1,?_⟩
  intro c inside
  rcases Finset.mem_insert.mp inside with rfl | old
  · exact gap_self _ n
  · have near := next.2 c old
    have toN := gap_add before
    have toC := gap_add (lt_of_lt_of_le before near)
    omega

/-- A member inserted after another one is the successor of that one only. -/
theorem isNext_insert_other (insideA : a ∈ F) (insideC : c ∈ F) (other : c ≠ a) (next : IsNext F a n)
    (before : gap a x < gap a n) (own : IsNext F c b) : IsNext (insert x F) c b := by
  refine ⟨Finset.mem_insert_of_mem own.1,?_⟩
  intro d inside
  rcases Finset.mem_insert.mp inside with rfl | old
  · by_contra nearer
    exact gap_arcs other (lt_of_lt_of_le (by omega) (own.2 a insideA)) (lt_of_lt_of_le before (next.2 c insideC))
  · exact own.2 d old

/-- Leaving out a member links the ones beside it. -/
theorem isNext_erase (insideA : a ∈ F) (ne : a ≠ n) (next : IsNext F a n) (after : IsNext F n b) :
    IsNext (F.erase n) a b := by
  have other : b ≠ n := by
    rintro rfl
    exact ne (isNext_self after insideA)
  refine ⟨Finset.mem_erase.mpr ⟨other,after.1⟩,?_⟩
  intro c inside
  obtain ⟨notN,old⟩ := Finset.mem_erase.mp inside
  have beyond : ∀ {d}, d ∈ F → d ≠ n → gap a n < gap a d := by
    intro d within differ
    exact lt_of_le_of_ne (next.2 d within) (fun same => differ (gap_inj same).symm)
  have toB := gap_add (beyond after.1 other)
  have toC := gap_add (beyond old notN)
  have near := after.2 c old
  omega

theorem isNext_erase_other (own : IsNext F c b) (notN : b ≠ n) : IsNext (F.erase n) c b :=
  ⟨Finset.mem_erase.mpr ⟨notN,own.1⟩,fun d inside => own.2 d (Finset.mem_of_mem_erase inside)⟩

end Members

/-! ### The ring as a list -/

private theorem sorted_list (F : Finset Word) :
    ∃ l : List Word, l.Pairwise (fun a b => a.toNat < b.toNat) ∧ ∀ a, a ∈ l ↔ a ∈ F := by
  let _ : LinearOrder Word := LinearOrder.lift' BitVec.toNat (fun _ _ => BitVec.eq_of_toNat_eq)
  exact ⟨F.sort,F.sortedLT_sort.pairwise,fun a => Finset.mem_sort _⟩

/-- Neighbours in address order follow each other. -/
private theorem isNext_neighbours {F : Finset Word} {l : List Word} (ordered : l.Pairwise (fun a b => a.toNat < b.toNat))
    (members : ∀ a, a ∈ l ↔ a ∈ F) {i : Nat} (inside : i+1 < l.length) : IsNext F l[i] l[i+1] := by
  refine ⟨(members _).mp (List.getElem_mem inside),?_⟩
  intro c within
  obtain ⟨j,bound,rfl⟩ := List.getElem_of_mem ((members c).mpr within)
  have order : ∀ {k k' : Nat} (low : k < k') (high : k' < l.length), l[k].toNat < l[k'].toNat :=
    fun low high => List.pairwise_iff_getElem.mp ordered _ _ _ high low
  have step : l[i].toNat < l[i+1].toNat := order (Nat.lt_succ_self i) inside
  have boundJ := (l[j]).isLt
  have boundI := (l[i]).isLt
  rw [gap_eq,gap_eq,if_pos step]
  rcases Nat.lt_trichotomy j (i+1) with low | rfl | high
  · have : l[j].toNat ≤ l[i].toNat := by
      rcases Nat.lt_or_eq_of_le (Nat.lt_succ_iff.mp low) with less | rfl
      · exact le_of_lt (order less (by omega))
      · exact le_refl _
    rw [if_neg (by omega)]
    omega
  · rw [if_pos step]
  · have := order high bound
    rw [if_pos (by omega)]
    omega

/-- The last member in address order is followed by the first one. -/
private theorem isNext_wrap {F : Finset Word} {l : List Word} (ordered : l.Pairwise (fun a b => a.toNat < b.toNat))
    (members : ∀ a, a ∈ l ↔ a ∈ F) {a b : Word} (last : l.getLast? = some a) (first : l.head? = some b) :
    IsNext F a b := by
  have low : ∀ c ∈ l, b.toNat ≤ c.toNat := by
    intro c inside
    cases l with
    | nil => cases inside
    | cons d rest =>
      obtain rfl : d = b := by simpa using first
      rcases List.mem_cons.mp inside with rfl | later
      · exact le_refl _
      · exact le_of_lt ((List.pairwise_cons.mp ordered).1 c later)
  have high : ∀ c ∈ l, c.toNat ≤ a.toNat := by
    intro c inside
    obtain ⟨init,rfl⟩ := List.getLast?_eq_some_iff.mp last
    rcases List.mem_append.mp inside with earlier | here
    · exact le_of_lt ((List.pairwise_append.mp ordered).2.2 c earlier a (by simp))
    · rw [List.mem_singleton.mp here]
  refine ⟨(members b).mp (List.mem_of_mem_head? first),?_⟩
  intro c within
  have inside := (members c).mpr within
  have := low c inside
  have := high c inside
  rw [gap_eq,gap_eq,if_neg (by omega),if_neg (by omega)]
  omega

/-- Following the successors from a member goes through all members and comes
    back, in increasing order but for one place. -/
theorem ring_list {F : Finset Word} {next : Word → Word} (ring : ∀ a ∈ F, IsNext F a (next a)) {start : Word}
    (inside : start ∈ F) :
    ∃ l : List Word, l.head? = some start ∧ (l++[start]).IsChain (fun a b => next a = b) ∧ (∀ a, a ∈ l ↔ a ∈ F) ∧
      ∃ n, (l.rotate n).Pairwise (fun a b => a.toNat < b.toNat) := by
  obtain ⟨l,ordered,members⟩ := sorted_list F
  obtain ⟨down,rest,rfl⟩ := List.append_of_mem ((members start).mpr inside)
  have linked : ∀ {a b}, a ∈ F → IsNext F a b → next a = b := fun within own => isNext_unique (ring _ within) own
  have chain : (down++start :: rest).IsChain (fun a b => next a = b) := by
    rw [List.isChain_iff_getElem]
    intro i bound
    exact linked ((members _).mp (List.getElem_mem _)) (isNext_neighbours ordered members bound)
  obtain ⟨chainDown,chainUp,link⟩ := List.isChain_append.mp chain
  refine ⟨(start :: rest)++down,by simp,?_,?_,(start :: rest).length,?_⟩
  · rw [List.append_assoc,List.isChain_append]
    refine ⟨chainUp,?_,?_⟩
    · rw [List.isChain_append]
      refine ⟨chainDown,List.isChain_singleton _,?_⟩
      intro a last b here
      exact link a last b (by simpa using here)
    · intro a last b first
      have lastAll : (down++start :: rest).getLast? = some a := by
        rw [List.getLast?_append]
        simp only [Option.mem_def] at last
        rw [last,Option.some_or]
      have firstAll : (down++start :: rest).head? = some b := by
        cases down with
        | nil => simpa using first
        | cons d down => simpa using first
      exact linked ((members a).mp (List.mem_of_getLast? lastAll)) (isNext_wrap ordered members lastAll firstAll)
  · intro a
    rw [← members a]
    simp only [List.mem_append,List.mem_cons]
    tauto
  · rw [List.rotate_append_length_eq]
    exact ordered

end SoKernel.Ring
