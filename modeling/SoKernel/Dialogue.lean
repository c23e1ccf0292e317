import Mathlib.Data.List.Basic

/-!
Programs that ask questions. A program is a tree: it returns, it runs on for ever without
a word, or it asks something and goes on with the answer. Nobody says where the answers
come from. A program follows another one if the other one asks the same at every turn,
seen with fewer details, for all answers that keep a contract. Then every conversation
with the first one is one with the second one, which is simpler.
-/
namespace SoKernel.Dialogue

/-- A program that asks questions in `Q`, gets answers in `R` and returns an `α`. -/
inductive Tree (Q R α : Type) : Type
  | ret (a : α)
  | spin
  | ask (q : Q) (next : R → Tree Q R α)

section
variable {Q R α β : Type}

/-- One program after the other. -/
def Tree.bind : Tree Q R α → (α → Tree Q R β) → Tree Q R β
  | .ret a, f => f a
  | .spin, _ => .spin
  | .ask q next, f => .ask q (fun r => (next r).bind f)

instance : Monad (Tree Q R) where
  pure := .ret
  bind := .bind

@[simp] theorem ret_bind (a : α) (f : α → Tree Q R β) : (Tree.ret a >>= f) = f a := rfl

theorem bind_assoc {γ : Type} (t : Tree Q R α) (f : α → Tree Q R β) (g : β → Tree Q R γ) :
    (t >>= f) >>= g = t >>= fun a => f a >>= g := by
  induction t with
  | ret a => rfl
  | spin => rfl
  | ask q next ih => exact congrArg (Tree.ask q) (funext ih)

/-- A loop without an end, for as many rounds as one likes to look at. -/
def Tree.rounds (body : α → Tree Q R α) : Nat → α → Tree Q R α
  | 0, a => .ret a
  | n+1, a => body a >>= Tree.rounds body n

/-- What is left of a program after these questions and answers. -/
inductive After : Tree Q R α → List (Q × R) → Tree Q R α → Prop
  | start (t : Tree Q R α) : After t [] t
  | answered (q : Q) {next : R → Tree Q R α} (r : R) {said : List (Q × R)} {t : Tree Q R α} (rest : After (next r) said t) :
      After (.ask q next) ((q,r) :: said) t

theorem after_bind {t : Tree Q R α} {f : α → Tree Q R β} {said : List (Q × R)} {b : β}
    (after : After (t >>= f) said (.ret b)) :
    ∃ a first rest, said = first++rest ∧ After t first (.ret a) ∧ After (f a) rest (.ret b) := by
  induction t generalizing said with
  | ret a => exact ⟨a,[],said,rfl,.start _,after⟩
  | spin => cases after
  | ask q next ih =>
    cases after with
    | answered _ r later =>
      obtain ⟨a,first,rest,rfl,before,last⟩ := ih r later
      exact ⟨a,(q,r) :: first,rest,rfl,.answered q r before,last⟩

/-- The conversation with a partner that has one answer for each question, up to the first
    question that it leaves open. -/
def Tree.play (answer : Q → Option R) : Tree Q R α → List (Q × R) × Tree Q R α
  | .ret a => ([],.ret a)
  | .spin => ([],.spin)
  | .ask q next =>
    match answer q with
    | none => ([],.ask q next)
    | some r => ((q,r) :: ((next r).play answer).1,((next r).play answer).2)

variable {answer : Q → Option R}

theorem play_none {q : Q} {next : R → Tree Q R α} (silent : answer q = none) :
    (Tree.ask q next).play answer = ([],.ask q next) := by rw [Tree.play,silent]

theorem play_some {q : Q} {next : R → Tree Q R α} {r : R} (answers : answer q = some r) :
    (Tree.ask q next).play answer = ((q,r) :: ((next r).play answer).1,((next r).play answer).2) := by
  rw [Tree.play,answers]

theorem play_after (answer : Q → Option R) (t : Tree Q R α) : After t (t.play answer).1 (t.play answer).2 := by
  induction t with
  | ret a => exact .start _
  | spin => exact .start _
  | ask q next ih =>
    cases answers : answer q with
    | none => rw [play_none answers]; exact .start _
    | some r => rw [play_some answers]; exact .answered q r (ih r)

theorem play_answered (t : Tree Q R α) : ∀ e ∈ (t.play answer).1, answer e.1 = some e.2 := by
  induction t with
  | ret a => simp [Tree.play]
  | spin => simp [Tree.play]
  | ask q next ih =>
    cases answers : answer q with
    | none => simp [play_none answers]
    | some r =>
      rw [play_some answers]
      intro e member
      rcases List.mem_cons.mp member with rfl | later
      · exact answers
      · exact ih r e later

end

/-! ### Following -/

/-- How much of a conversation is looked at. -/
structure View (Q R Q' R' : Type) where
  /-- The contract that answers keep. -/
  keeps : Q → R → Prop
  /-- What is demanded of a question. -/
  fine : Q → Prop
  shown : Q → Q'
  told : Q → R → R'

section
variable {Q R Q' R' α β γ δ : Type} {v : View Q R Q' R'} {rel : α → β → Prop} {rel' : γ → δ → Prop}

/-- What is seen of a question and its answer. -/
def View.exchange (v : View Q R Q' R') (e : Q × R) : Q' × R' := (v.shown e.1,v.told e.1 e.2)

/-- All questions are fine, and seen from outside they are those of the other program. -/
inductive Follows (v : View Q R Q' R') (rel : α → β → Prop) : Tree Q R α → Tree Q' R' β → Prop
  | ret {a : α} {b : β} (related : rel a b) : Follows v rel (.ret a) (.ret b)
  | spin : Follows v rel .spin .spin
  | ask {q : Q} {next : R → Tree Q R α} {next' : R' → Tree Q' R' β} (isFine : v.fine q)
      (goesOn : ∀ r, v.keeps q r → Follows v rel (next r) (next' (v.told q r))) :
      Follows v rel (.ask q next) (.ask (v.shown q) next')

theorem follows_bind {t : Tree Q R α} {t' : Tree Q' R' β} {f : α → Tree Q R γ} {f' : β → Tree Q' R' δ}
    (first : Follows v rel t t') (second : ∀ a b, rel a b → Follows v rel' (f a) (f' b)) :
    Follows v rel' (t >>= f) (t' >>= f') := by
  induction first with
  | ret related => exact second _ _ related
  | spin => exact .spin
  | ask isFine _ ih => exact .ask isFine ih

theorem follows_mono {more : α → β → Prop} {t : Tree Q R α} {t' : Tree Q' R' β} (follows : Follows v rel t t')
    (weaker : ∀ a b, rel a b → more a b) : Follows v more t t' := by
  induction follows with
  | ret related => exact .ret (weaker _ _ related)
  | spin => exact .spin
  | ask isFine _ ih => exact .ask isFine ih

/-- What one round keeps holds after every round. -/
theorem follows_rounds {body : α → Tree Q R α} {body' : β → Tree Q' R' β}
    (round : ∀ a b, rel a b → Follows v rel (body a) (body' b)) (n : Nat) {a : α} {b : β} (related : rel a b) :
    Follows v rel (Tree.rounds body n a) (Tree.rounds body' n b) := by
  induction n generalizing a b with
  | zero => exact .ret related
  | succ n ih => exact follows_bind (round a b related) (fun _ _ later => ih later)

/-- Every conversation with the one is a conversation with the other. -/
theorem follows_after {t left : Tree Q R α} {t' : Tree Q' R' β} (follows : Follows v rel t t') {said : List (Q × R)}
    (after : After t said left) (kept : ∀ e ∈ said, v.keeps e.1 e.2) :
    (∀ e ∈ said, v.fine e.1) ∧ ∃ left', After t' (said.map v.exchange) left' ∧ Follows v rel left left' := by
  induction after generalizing t' with
  | start t => exact ⟨by simp,t',.start t',follows⟩
  | @answered q next r said left rest ih =>
    cases follows with
    | ask isFine goesOn =>
      have here : v.keeps q r := kept (q,r) List.mem_cons_self
      obtain ⟨others,left',after',follows'⟩ := ih (goesOn r here) (fun e later => kept e (List.mem_cons_of_mem _ later))
      refine ⟨?_,left',.answered _ _ after',follows'⟩
      rintro e member
      rcases List.mem_cons.mp member with rfl | later
      · exact isFine
      · exact others e later

/-- With such a partner, the one says what the other says with what is seen of its answers. -/
theorem follows_play {t : Tree Q R α} {t' : Tree Q' R' β} (follows : Follows v rel t t') {answer : Q → Option R}
    {answer' : Q' → Option R'} (keeps : ∀ q r, answer q = some r → v.keeps q r)
    (seen : ∀ q, answer' (v.shown q) = (answer q).map (v.told q)) :
    (t.play answer).1.map v.exchange = (t'.play answer').1 := by
  induction follows with
  | ret _ => rfl
  | spin => rfl
  | @ask q next next' _ _ ih =>
    have same := seen q
    cases answers : answer q with
    | none =>
      rw [answers,Option.map_none] at same
      rw [play_none answers,play_none same]
      rfl
    | some r =>
      rw [answers,Option.map_some] at same
      rw [play_some answers,play_some same,List.map_cons,ih r (keeps q r answers)]
      rfl

end
end SoKernel.Dialogue
