import Mathlib.Logic.Relation

/-!
Caches of a function that changes. The function is part of the state of a machine; the
cache is filled from it and emptied at any time, also without need, and nothing tells
the cache when the function changes, except that some steps of the machine flush it.
The cache cannot be told from the function if only those steps change the function.
-/
namespace SoKernel.Cached

variable {α β σ : Type*}

/-- The values that are kept for some arguments. -/
abbrev Cache (α β : Type*) := α → Option β

def empty : Cache α β := fun _ => none

/-- The values for some arguments are fetched, those that exist. -/
def fill (f : α → Option β) (which : α → Bool) (cache : Cache α β) : Cache α β :=
  fun a => if which a then f a else cache a

/-- The values for some arguments are given up. -/
def evict (which : α → Bool) (cache : Cache α β) : Cache α β := fun a => if which a then none else cache a

/-- What is found for an argument: what is kept, or else the value of the function. -/
def lookup (cache : Cache α β) (f : α → Option β) (a : α) : Option β := (cache a).or (f a)

/-- What is kept is right. -/
def Coherent (cache : Cache α β) (f : α → Option β) : Prop := ∀ a v, cache a = some v → f a = some v

theorem coherent_empty (f : α → Option β) : Coherent empty f := fun _ _ kept => by cases kept

theorem coherent_fill {cache : Cache α β} {f : α → Option β} (coherent : Coherent cache f) (which : α → Bool) :
    Coherent (fill f which cache) f := by
  intro a v kept
  rw [fill] at kept
  split at kept
  · exact kept
  · exact coherent a v kept

theorem coherent_evict {cache : Cache α β} {f : α → Option β} (coherent : Coherent cache f) (which : α → Bool) :
    Coherent (evict which cache) f := by
  intro a v kept
  rw [evict] at kept
  split at kept
  · cases kept
  · exact coherent a v kept

/-- A coherent cache cannot be told from the function. -/
theorem lookup_coherent {cache : Cache α β} {f : α → Option β} (coherent : Coherent cache f) : lookup cache f = f := by
  funext a
  rw [lookup]
  cases kept : cache a with
  | none => rfl
  | some v => exact (coherent a v kept).symm

section Machine
variable (step : σ → σ → Prop) (f : σ → α → Option β) (flushes : σ → σ → Prop)

/-- A machine with a cache beside it. -/
inductive Step : σ × Cache α β → σ × Cache α β → Prop
  | keep (s s' : σ) (cache : Cache α β) (moves : step s s') (stays : ¬ flushes s s') : Step (s,cache) (s',cache)
  | flush (s s' : σ) (cache : Cache α β) (moves : step s s') : Step (s,cache) (s',empty)
  | fill (s : σ) (cache : Cache α β) (which : α → Bool) : Step (s,cache) (s,fill (f s) which cache)
  | evict (s : σ) (cache : Cache α β) (which : α → Bool) : Step (s,cache) (s,evict which cache)

abbrev Run : σ × Cache α β → σ × Cache α β → Prop := Relation.ReflTransGen (Step step f flushes)

variable {step f flushes} {inv : σ → Prop} (keeps : ∀ s s', inv s → step s s' → inv s')
  (stable : ∀ s s', inv s → step s s' → ¬ flushes s s' → f s' = f s)
include keeps stable

theorem step_coherent {x y : σ × Cache α β} (coherent : inv x.1 ∧ Coherent x.2 (f x.1))
    (moved : Step step f flushes x y) : inv y.1 ∧ Coherent y.2 (f y.1) := by
  obtain ⟨holds,coherent⟩ := coherent
  cases moved with
  | keep s s' cache moves stays =>
    refine ⟨keeps s s' holds moves,?_⟩
    change Coherent cache (f s')
    rw [stable s s' holds moves stays]
    exact coherent
  | flush s s' cache moves => exact ⟨keeps s s' holds moves,coherent_empty _⟩
  | fill s cache which => exact ⟨holds,coherent_fill coherent which⟩
  | evict s cache which => exact ⟨holds,coherent_evict coherent which⟩

/-- The cache is coherent in every run of such a machine. -/
theorem run_coherent {s : σ} (holds : inv s) {x : σ × Cache α β} (run : Run step f flushes (s,empty) x) :
    inv x.1 ∧ Coherent x.2 (f x.1) := by
  induction run with
  | refl => exact ⟨holds,coherent_empty _⟩
  | tail _ moved ih => exact step_coherent keeps stable ih moved

end Machine

end SoKernel.Cached
