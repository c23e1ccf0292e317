import SoKernel.PageTables
import SoKernel.PfaInit
import Mathlib.Logic.Relation

/-!
Any number of address spaces, built and edited in any interleaving, beside the
rest of the kernel, which allocates and writes frames of its own. In every
reachable state the processor sees, through each directory, exactly the page
map of the calls made on that directory.
-/
namespace SoKernel.PageRefinement
open SoKernel.Words SoKernel.Pages SoKernel.Pfa SoKernel.PfaInit SoKernel.Paging SoKernel.PageTables
set_option linter.unusedSimpArgs false

/-- The directories built so far with the page maps they should have, and the
    frames that building and editing them took. -/
structure Spaces where
  phys : Phys
  maps : Word → Option PageMap
  taken : Nat → Prop

/-- The frames taken once the allocator has gone from `before` to `after`. -/
def Spaces.takenBy (s : Spaces) (after : Phys) (f : Nat) : Prop :=
  s.taken f ∨ (is_used s.phys.frames f = false ∧ is_used after.frames f = true)

def Spaces.create (s : Spaces) : Spaces :=
  let built := paging_create_kernel_dir physical s.phys
  { phys := built.2
    maps := if built.1 = 0#32 then s.maps else Function.update s.maps built.1 (some (fun _ => none))
    taken := s.takenBy built.2 }

def Spaces.edit (s : Spaces) (dir : Word) (map : PageMap) (virt phys flags : Word) : Spaces :=
  let after := paging_map_4k physical s.phys dir virt phys flags
  { phys := after
    maps := if TableFails s.phys dir virt then s.maps
      else Function.update s.maps dir (some (Function.update map (pageOf virt) (some (phys,flags))))
    taken := s.takenBy after }

inductive Step : Spaces → Spaces → Prop
  | create (s : Spaces) : Step s s.create
  | edit (s : Spaces) (dir virt phys flags : Word) (map : PageMap) (isDir : s.maps dir = some map)
      (valid : ValidFlags flags) : Step s (s.edit dir map virt phys flags)
  /-- The rest of the kernel: whatever it allocates, frees and writes, it leaves
      the frames taken here alone. -/
  | other (s : Spaces) (after : Phys) (zero : is_used after.frames 0 = true)
      (keepsFrames : ∀ f, s.taken f → is_used after.frames f = true)
      (keepsMemory : ∀ a, s.taken (pageOf a) → after.mem a = s.phys.mem a) :
      Step s { s with phys := after }

/-- Every directory represents its page map, in frames of its own. -/
structure Refines (s : Spaces) (tables : Word → Nat → Option Word) : Prop where
  zero : is_used s.phys.frames 0 = true
  represents : ∀ dir map, s.maps dir = some map → Represents s.phys.mem dir (tables dir) map
  takenUsed : ∀ f, s.taken f → is_used s.phys.frames f = true
  owns : ∀ dir map, s.maps dir = some map → ∀ f, Owns dir (tables dir) f → s.taken f
  apart : ∀ dir map dir' map', s.maps dir = some map → s.maps dir' = some map' → dir ≠ dir' →
    ∀ f, Owns dir (tables dir) f → ¬ Owns dir' (tables dir') f

section
variable {s : Spaces} {tables : Word → Nat → Option Word}

theorem owns_used (inv : Refines s tables) {dir : Word} {map : PageMap} (isDir : s.maps dir = some map) (f : Nat)
    (owns : Owns dir (tables dir) f) : is_used s.phys.frames f = true :=
  inv.takenUsed f (inv.owns dir map isDir f owns)

theorem takenBy_used (inv : Refines s tables) {after : Phys}
    (grows : ∀ f, is_used s.phys.frames f = true → is_used after.frames f = true) (f : Nat)
    (taken : s.takenBy after f) : is_used after.frames f = true := by
  rcases taken with old | new
  · exact grows f (inv.takenUsed f old)
  · exact new.2

theorem create_refines (inv : Refines s tables) : ∃ tables', Refines s.create tables' := by
  rcases create_correct inv.zero with ⟨failed,_⟩ | ⟨f,inside,free,_,built,nonzero,frames,rep,off⟩
  · refine ⟨tables,?_⟩
    simp only [Spaces.create,failed,if_true]
    exact ⟨inv.zero,inv.represents,takenBy_used inv (fun _ used => used),
      fun dir map isDir g owns => .inl (inv.owns dir map isDir g owns),inv.apart⟩
  · -- The new directory owns one frame, which was free.
    have page : pageOf (pageAddr f) = f := pageOf_pageAddr inside
    have grows : ∀ g, is_used s.phys.frames g = true → is_used (mark_used s.phys.frames f) g = true := by
      intro g used
      simp [used]
    have ownsNew : ∀ g, Owns (pageAddr f) (fun _ => none) g → g = f := by
      rintro g (same | ⟨_,_,_,found,_⟩)
      · rwa [page] at same
      · cases found
    have oldOther : ∀ dir map, s.maps dir = some map → ∀ g, Owns dir (tables dir) g → g ≠ f := by
      rintro dir map isDir g owns rfl
      have used := owns_used inv isDir g owns
      rw [free] at used
      cases used
    have oldDir : ∀ dir map, s.maps dir = some map → dir ≠ pageAddr f := by
      rintro dir map isDir rfl
      exact oldOther _ map isDir f (.inl page.symm) rfl
    refine ⟨Function.update tables (pageAddr f) (fun _ => none),?_⟩
    have mapCases : ∀ dir map, s.create.maps dir = some map →
        (dir = pageAddr f ∧ map = fun _ => none) ∨ (dir ≠ pageAddr f ∧ s.maps dir = some map) := by
      intro dir map isDir
      simp only [Spaces.create,built,nonzero,if_false] at isDir
      by_cases same : dir = pageAddr f
      · subst same
        rw [Function.update_self,Option.some_inj] at isDir
        exact .inl ⟨rfl,isDir.symm⟩
      · rw [Function.update_of_ne same] at isDir
        exact .inr ⟨same,isDir⟩
    refine ⟨?_,?_,?_,?_,?_⟩
    · rw [show s.create.phys.frames = mark_used s.phys.frames f from frames]
      exact grows 0 inv.zero
    · intro dir map isDir
      rcases mapCases dir map isDir with ⟨rfl,rfl⟩ | ⟨other,old⟩
      · rw [Function.update_self]
        exact rep
      · rw [Function.update_of_ne other]
        refine represents_congr (inv.represents dir map old) (fun a owns => off a ?_)
        exact oldOther dir map old _ owns
    · refine takenBy_used inv ?_
      intro g used
      rw [frames]
      exact grows g used
    · intro dir map isDir g owns
      rcases mapCases dir map isDir with ⟨rfl,rfl⟩ | ⟨other,old⟩
      · rw [Function.update_self] at owns
        rw [ownsNew g owns]
        exact .inr ⟨free,by rw [frames]; simp⟩
      · rw [Function.update_of_ne other] at owns
        exact .inl (inv.owns dir map old g owns)
    · intro dir map dir' map' isDir isDir' ne g owns owns'
      rcases mapCases dir map isDir with ⟨rfl,rfl⟩ | ⟨other,old⟩
      · rcases mapCases dir' map' isDir' with ⟨rfl,_⟩ | ⟨other',old'⟩
        · exact ne rfl
        · rw [Function.update_self] at owns
          rw [Function.update_of_ne other'] at owns'
          exact oldOther dir' map' old' g owns' (ownsNew g owns)
      · rw [Function.update_of_ne other] at owns
        rcases mapCases dir' map' isDir' with ⟨rfl,_⟩ | ⟨other',old'⟩
        · rw [Function.update_self] at owns'
          exact oldOther dir map old g owns (ownsNew g owns')
        · rw [Function.update_of_ne other'] at owns'
          exact inv.apart dir map dir' map' old old' ne g owns owns'

/-- Outside the directory that is edited, an edit writes only a frame that was free. -/
theorem edit_off (inv : Refines s tables) {dir : Word} {map : PageMap} (isDir : s.maps dir = some map)
    (virt phys : Word) {flags : Word} (valid : ValidFlags flags) (a : Word)
    (outside : ¬ Owns dir (tables dir) (pageOf a)) (used : is_used s.phys.frames (pageOf a) = true) :
    (paging_map_4k physical s.phys dir virt phys flags).mem a = s.phys.mem a := by
  rcases map_correct virt phys (inv.represents dir map isDir) valid inv.zero (owns_used inv isDir) with
    ⟨_,same⟩ | ⟨_,tables',_,off,⟨same,_⟩ | ⟨f,inside,free,_,_,same,_⟩⟩
  · rw [same]
  · exact off a (by rwa [same])
  · refine off a (fun owns => ?_)
    rw [same] at owns
    rcases owns_update inside owns with old | new
    · exact outside old
    · rw [new,free] at used
      cases used

/-- An edit keeps the meaning of every other directory. -/
theorem edit_other (inv : Refines s tables) {dir dir' : Word} {map map' : PageMap} (isDir : s.maps dir = some map)
    (isDir' : s.maps dir' = some map') (ne : dir' ≠ dir) (virt phys : Word) {flags : Word} (valid : ValidFlags flags) :
    Represents (paging_map_4k physical s.phys dir virt phys flags).mem dir' (tables dir') map' := by
  refine represents_congr (inv.represents dir' map' isDir') (fun a owns => ?_)
  exact edit_off inv isDir virt phys valid a (inv.apart dir' map' dir map isDir' isDir ne _ owns)
    (owns_used inv isDir' _ owns)

theorem edit_refines (inv : Refines s tables) {dir : Word} {map : PageMap} (isDir : s.maps dir = some map)
    (virt phys : Word) {flags : Word} (valid : ValidFlags flags) :
    ∃ tables', Refines (s.edit dir map virt phys flags) tables' := by
  rcases map_correct virt phys (inv.represents dir map isDir) valid inv.zero (owns_used inv isDir) with
    ⟨fails,same⟩ | ⟨succeeds,tables',rep,_,shape⟩
  · refine ⟨tables,?_⟩
    simp only [Spaces.edit,fails,if_true,same]
    exact ⟨inv.zero,inv.represents,takenBy_used inv (fun _ used => used),
      fun dir map isDir g owns => .inl (inv.owns dir map isDir g owns),inv.apart⟩
  · -- The edited directory owns what it owned before and perhaps a frame that was free.
    have grows : ∀ g, is_used s.phys.frames g = true →
        is_used (paging_map_4k physical s.phys dir virt phys flags).frames g = true := by
      intro g used
      rcases shape with ⟨_,frames⟩ | ⟨f,_,_,_,_,_,frames⟩ <;> simp [frames,used]
    have ownsNew : ∀ g, Owns dir tables' g → Owns dir (tables dir) g ∨ (is_used s.phys.frames g = false ∧
        is_used (paging_map_4k physical s.phys dir virt phys flags).frames g = true) := by
      intro g owns
      rcases shape with ⟨same,_⟩ | ⟨f,inside,free,_,_,same,frames⟩
      · exact .inl (same ▸ owns)
      · rw [same] at owns
        rcases owns_update inside owns with old | new
        · exact .inl old
        · exact .inr ⟨by rw [new]; exact free,by rw [frames,new]; simp⟩
    have mapCases : ∀ dir' map', (s.edit dir map virt phys flags).maps dir' = some map' →
        (dir' = dir ∧ map' = Function.update map (pageOf virt) (some (phys,flags))) ∨
          (dir' ≠ dir ∧ s.maps dir' = some map') := by
      intro dir' map' isDir'
      simp only [Spaces.edit,succeeds,if_false] at isDir'
      by_cases same : dir' = dir
      · subst same
        rw [Function.update_self,Option.some_inj] at isDir'
        exact .inl ⟨rfl,isDir'.symm⟩
      · rw [Function.update_of_ne same] at isDir'
        exact .inr ⟨same,isDir'⟩
    have apartNew : ∀ dir' map', s.maps dir' = some map' → dir' ≠ dir → ∀ g, Owns dir tables' g →
        ¬ Owns dir' (tables dir') g := by
      intro dir' map' isDir' ne g owns owns'
      rcases ownsNew g owns with old | new
      · exact inv.apart dir map dir' map' isDir isDir' ne.symm g old owns'
      · have used := owns_used inv isDir' g owns'
        rw [new.1] at used
        cases used
    refine ⟨Function.update tables dir tables',⟨grows 0 inv.zero,?_,takenBy_used inv grows,?_,?_⟩⟩
    · intro dir' map' isDir'
      rcases mapCases dir' map' isDir' with ⟨rfl,rfl⟩ | ⟨ne,old⟩
      · rw [Function.update_self]
        exact rep
      · rw [Function.update_of_ne ne]
        exact edit_other inv isDir old ne virt phys valid
    · intro dir' map' isDir' g owns
      rcases mapCases dir' map' isDir' with ⟨rfl,rfl⟩ | ⟨ne,old⟩
      · rw [Function.update_self] at owns
        rcases ownsNew g owns with before | new
        · exact .inl (inv.owns dir' map isDir g before)
        · exact .inr new
      · rw [Function.update_of_ne ne] at owns
        exact .inl (inv.owns dir' map' old g owns)
    · intro dir₁ map₁ dir₂ map₂ isDir₁ isDir₂ ne g owns₁ owns₂
      rcases mapCases dir₁ map₁ isDir₁ with ⟨rfl,_⟩ | ⟨ne₁,old₁⟩
      · rcases mapCases dir₂ map₂ isDir₂ with ⟨rfl,_⟩ | ⟨ne₂,old₂⟩
        · exact ne rfl
        · rw [Function.update_self] at owns₁
          rw [Function.update_of_ne ne₂] at owns₂
          exact apartNew dir₂ map₂ old₂ ne₂ g owns₁ owns₂
      · rw [Function.update_of_ne ne₁] at owns₁
        rcases mapCases dir₂ map₂ isDir₂ with ⟨rfl,_⟩ | ⟨ne₂,old₂⟩
        · rw [Function.update_self] at owns₂
          exact apartNew dir₁ map₁ old₁ ne₁ g owns₂ owns₁
        · rw [Function.update_of_ne ne₂] at owns₂
          exact inv.apart dir₁ map₁ dir₂ map₂ old₁ old₂ ne g owns₁ owns₂

theorem step_refines {t : Spaces} (inv : Refines s tables) (step : Step s t) : ∃ tables', Refines t tables' := by
  cases step with
  | create => exact create_refines inv
  | edit dir virt phys flags map isDir valid => exact edit_refines inv isDir virt phys valid
  | other after zero keepsFrames keepsMemory =>
    refine ⟨tables,zero,?_,keepsFrames,inv.owns,inv.apart⟩
    intro dir map isDir
    exact represents_congr (inv.represents dir map isDir) (fun a owns => keepsMemory a (inv.owns dir map isDir _ owns))

end

/-- No directory yet. -/
def start (p : Phys) : Spaces := { phys := p, maps := fun _ => none, taken := fun _ => False }

theorem run_refines {p : Phys} (zero : is_used p.frames 0 = true) {s : Spaces}
    (run : Relation.ReflTransGen Step (start p) s) : ∃ tables, Refines s tables := by
  induction run with
  | refl =>
    refine ⟨fun _ _ => none,zero,?_,?_,?_,?_⟩
    · intro dir map isDir; cases isDir
    · intro f taken; exact taken.elim
    · intro dir map isDir; cases isDir
    · intro dir map dir' map' isDir; cases isDir
  | tail _ step ih =>
    obtain ⟨tables,inv⟩ := ih
    exact step_refines inv step

/-- In every reachable state, translation through each directory is its page
    map; a call without a frame for its table changes no translation at all, and
    no call changes the translation of another directory. -/
theorem page_tables_refine_maps {p : Phys} (zero : is_used p.frames 0 = true) {s : Spaces}
    (run : Relation.ReflTransGen Step (start p) s) :
    (∀ dir map, s.maps dir = some map → ∀ virt, translate s.phys.mem dir virt = some (view map virt)) ∧
      ∀ dir map, s.maps dir = some map → ∀ virt phys flags, ValidFlags flags →
        (TableFails s.phys dir virt → ∀ dir' virt',
          Paging.translate (paging_map_4k physical s.phys dir virt phys flags).mem dir' virt' =
            Paging.translate s.phys.mem dir' virt') ∧
        ∀ dir' map', s.maps dir' = some map' → dir' ≠ dir → ∀ virt',
          translate (paging_map_4k physical s.phys dir virt phys flags).mem dir' virt' =
            translate s.phys.mem dir' virt' := by
  obtain ⟨tables,inv⟩ := run_refines zero run
  refine ⟨fun dir map isDir virt => translate_correct (inv.represents dir map isDir) virt,?_⟩
  intro dir map isDir virt phys flags valid
  refine ⟨?_,?_⟩
  · intro fails dir' virt'
    rcases map_correct virt phys (inv.represents dir map isDir) valid inv.zero (owns_used inv isDir) with
      ⟨_,same⟩ | ⟨succeeds,_⟩
    · rw [same]
    · exact absurd fails succeeds
  · intro dir' map' isDir' ne virt'
    rw [translate_correct (edit_other inv isDir isDir' ne virt phys valid),
      translate_correct (inv.represents dir' map' isDir')]

/-- On the small PC: a directory, then its first page mapped to 0x5000 for the user. -/
theorem page_tables_refine_maps_pc : ∃ p s, is_used p.frames 0 = true ∧ Relation.ReflTransGen Step (start p) s ∧
    translate s.phys.mem 0x1000#32 0x123#32 = some ⟨0x5123#32,true,true⟩ ∧
    translate s.phys.mem 0x1000#32 0x7123#32 = some ⟨0x7123#32,true,false⟩ := by
  obtain ⟨frames,ended⟩ := pc_init
  have zero := pc_zero_used ended
  have low : ∀ f, 0 < f → f < 16 → is_used frames f = false := fun f => pc_low_free ended
  have first : pfa_alloc frames = (0x1000#32,mark_used frames 1) := by
    refine pfa_alloc_eq (by decide) (low 1 (by decide) (by decide)) (fun g below => ?_)
    rwa [show g = 0 by omega]
  have second : (pfa_alloc (mark_used frames 1)).1 = 0x2000#32 := by
    rw [pfa_alloc_eq (f := 2) (by decide) (by simp [low 2]) (fun g below => ?_)]
    · rfl
    · rcases show g = 0 ∨ g = 1 by omega with rfl | rfl <;> simp [zero]
  have isDir : (start ⟨frames,pc.mem⟩).create.maps 0x1000#32 = some (fun _ => none) := by
    simp [Spaces.create,start,first]
  have valid : ValidFlags 7#32 := by decide
  have run : Relation.ReflTransGen Step (start ⟨frames,pc.mem⟩)
      ((start ⟨frames,pc.mem⟩).create.edit 0x1000#32 (fun _ => none) 0#32 0x5000#32 7#32) :=
    (Relation.ReflTransGen.single (.create _)).tail (.edit _ _ _ _ _ _ isDir valid)
  have succeeds : ¬ TableFails (start ⟨frames,pc.mem⟩).create.phys 0x1000#32 0#32 := by
    simp [TableFails,Spaces.create,start,first,second]
  have edited : ((start ⟨frames,pc.mem⟩).create.edit 0x1000#32 (fun _ => none) 0#32 0x5000#32 7#32).maps 0x1000#32 =
      some (Function.update (fun _ => none) (pageOf 0#32) (some (0x5000#32,7#32))) := by
    simp [Spaces.edit,succeeds]
  have refined := (page_tables_refine_maps zero run).1 _ _ edited
  refine ⟨_,_,zero,run,?_,?_⟩
  · rw [refined]
    decide
  · rw [refined]
    decide

end SoKernel.PageRefinement
