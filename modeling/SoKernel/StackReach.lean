import SoKernel.Worlds
import SoKernel.FrameCount
import SoKernel.Kmain

/-!
Whether a process can reach its own kernel stack. `switch_context` loads the
directory of a process and at once pops from its kernel stack, so the directory
must map that page to itself. User code is mapped from virtual 0 upwards, over
whatever the kernel has there; the kernel stack is the lowest free frame. So it is
reachable as long as the program is no longer than the memory below that frame.

The kernel itself works through the directory that is loaded, and the same
condition is what lets it reach the frames it allocates.
-/
namespace SoKernel.StackReach
open SoKernel.Words SoKernel.Pages SoKernel.Pfa SoKernel.PfaInit SoKernel.Paging SoKernel.PageTables SoKernel.Fs
  SoKernel.Process SoKernel.KernelAccess SoKernel.AddressSpace SoKernel.FrameCount SoKernel.System SoKernel.Worlds
  SoKernel.Kmain
set_option linter.unusedSimpArgs false

/-- The kernel runs under the directory that is loaded. -/
def underPaging (trampoline : Word) : Machine := ⟨fun k => paged k.cr3,trampoline⟩

/-- Through its directory a process reaches its kernel stack and the kernel image at
    their own addresses, and only the kernel may. -/
def Reaches (b : Setup) (m : Memory) (c : Creation) : Prop :=
  ∀ a : Word, (c.kernel_stack.toNat ≤ a.toNat ∧ a.toNat < c.kernel_stack.toNat+4096) ∨
      (b.kernel_physical_start.toNat ≤ a.toNat ∧ a.toNat < b.kernel_physical_end.toNat) →
    translate m c.user_dir a = some ⟨a,true,false⟩

/-- The code of the program ends below the kernel image and below every frame that
    the call may take, and the call does not come to the frame whose address is that
    of the user stack. -/
def Fits (b : Setup) (trampoline : Word) (fs : FsInstance) (w : World) : Action → Prop
  | .create name =>
    let pages := program_pages ((underPaging trampoline).access w.kernel) fs name w.kernel
    pages ≤ pageOf b.kernel_physical_start ∧ Handed (fun f => pages ≤ f ∧ f ≠ 0xBFFFF) (most_frames pages) w.frames
  | _ => True

theorem handed_and {F G : Nat → Prop} {n : Nat} {s : Frames} (first : Handed F n s) (second : Handed G n s) :
    Handed (fun f => F f ∧ G f) n s := by
  induction n generalizing s with
  | zero => trivial
  | succ n ih =>
    intro f inside free least
    obtain ⟨inF,restF⟩ := first f inside free least
    obtain ⟨inG,restG⟩ := second f inside free least
    exact ⟨⟨inF,inG⟩,ih restF restG⟩

theorem handed_mono {F G : Nat → Prop} (mono : ∀ f, F f → G f) {n : Nat} {s : Frames} (handed : Handed F n s) :
    Handed G n s := by
  induction n generalizing s with
  | zero => trivial
  | succ n ih =>
    intro f inside free least
    obtain ⟨inF,rest⟩ := handed f inside free least
    exact ⟨mono f inF,ih rest⟩

/-- If the next frame to be handed out is not below `pages`, no frame below is free. -/
theorem next_used {s : Frames} {pages : Nat} (bound : pages ≤ MAX_FRAMES) (next : Next (fun f => pages ≤ f) s) :
    ∀ v < pages, is_used s v = true := by
  intro v below
  rcases pfa_alloc_cases s with ⟨_,full⟩ | ⟨f,inside,free,least,_⟩
  · exact full v (by omega)
  · exact least v (by have := next f inside free least; omega)

/-- Under a directory that leaves the pages `F` to the identity map, and whose own
    frames are outside `F`, pointers reach the pages `F`. -/
theorem paged_sees {m : Memory} {dir : Word} {tables : Nat → Option Word} {map : PageMap} {F : Nat → Prop}
    (rep : Represents m dir tables map) (outside : ∀ f, Owns dir tables f → ¬ F f) (identity : ∀ f, F f → map f = none) :
    Sees (paged dir) m F := by
  intro n off a inF
  have rep' : Represents n dir tables map := represents_congr rep (fun b owns => off b (outside _ owns))
  simp [paged,translate_correct rep',view,identity _ inF]

/-! ### The invariant -/

/-- What the calls so far have left, beside separate address spaces. -/
structure Steady (b : Setup) (w : World) : Prop where
  code : ∀ c ∈ w.log, ∀ v < c.code_pages, is_used w.frames v = true
  image : ∀ c ∈ w.log, c.code_pages ≤ pageOf b.kernel_physical_start
  stack : ∀ c ∈ w.log, c.slot ≠ none → c.code_pages ≤ pageOf c.kernel_stack ∧ pageOf c.kernel_stack ≠ 0xBFFFF
  bootDir : Represents w.mem b.page_directory (fun _ => none) (fun _ => none)
  loaded : w.kernel.cr3 = b.page_directory ∨ ∃ c ∈ w.log, c.user_dir ≠ 0#32 ∧ w.kernel.cr3 = c.user_dir

section
variable {b : Setup} {start : Frames} {w : World} {book : List (Creation × Ghost)}

theorem bootDir_owns {f : Nat} (owns : Owns b.page_directory (fun _ => none) f) : f = pageOf b.page_directory := by
  rcases owns with same | ⟨_,_,_,found,_⟩
  · exact same
  · cases found

/-- The frame of the boot directory is part of the kernel image. -/
theorem bootDir_shares : Shares (pageOf b.page_directory) b.kernel_physical_start.toNat b.kernel_physical_end.toNat := by
  have aligned := b.aligned
  obtain ⟨low,high⟩ := b.inImage
  simp only [PageAligned] at aligned
  simp only [pageOf]
  exact ⟨b.page_directory.toNat,low,by omega,by omega,by omega⟩

/-- The kernel reaches every free frame except the one at the address of the user stack. -/
theorem steady_sees (inv : Separate start w book) (steady : Steady b w)
    (bootUsed : is_used start (pageOf b.page_directory) = true) :
    Sees (paged w.kernel.cr3) w.mem (fun f => Free w.frames f ∧ f ≠ 0xBFFFF) := by
  rcases steady.loaded with boot | ⟨c,logged,nonzero,cr3⟩
  · rw [boot]
    refine paged_sees steady.bootDir ?_ (fun _ _ => rfl)
    rintro f owns ⟨free,_⟩
    have used := inv.grows _ bootUsed
    rw [← bootDir_owns owns,free] at used
    cases used
  · rw [cr3]
    obtain ⟨g,member⟩ := mem_book inv logged
    obtain ⟨_,space⟩ := (inv.describes _ member).dir nonzero
    refine paged_sees space.rep ?_ ?_
    · rintro f owns ⟨free,_⟩
      have used := (inv.taken _ member f (space.owned f owns)).2
      rw [free] at used
      cases used
    · rintro f ⟨free,notStack⟩
      cases mapped : g.map f with
      | none => rfl
      | some target =>
        obtain ⟨phys,flags⟩ := target
        rcases (space.mapped f phys flags mapped).2.2 with below | isStack
        · have used := steady.code c logged f below
          rw [free] at used
          cases used
        · exact absurd isStack notStack

/-- The frames that a call for a program that fits may take. -/
theorem fits_handed {trampoline : Word} {fs : FsInstance} {name : List Byte} (fits : Fits b trampoline fs w (.create name)) :
    Handed (fun f => Free w.frames f ∧ f ≠ 0xBFFFF) (most_frames (program_pages (paged w.kernel.cr3) fs name w.kernel))
      w.frames :=
  handed_and (handed_free (grows_refl _) _) (handed_mono (fun _ both => both.2) fits.2)

/-- Creating a process that fits. -/
theorem create_steady {trampoline : Word} {fs : FsInstance} {name : List Byte} (inv : Separate start w book)
    (steady : Steady b w) (bootUsed : is_used start (pageOf b.page_directory) = true)
    (fits : Fits b trampoline fs w (.create name)) :
    Image (w.call (underPaging trampoline) fs name) w.kernel ∧
      Steady b ⟨(w.call (underPaging trampoline) fs name).kernel,w.call (underPaging trampoline) fs name :: w.log⟩ := by
  have image : Image (w.call (underPaging trampoline) fs name) w.kernel :=
    process_create_image (steady_sees inv steady bootUsed) inv.zero _ fs name (fits_handed fits)
  obtain ⟨belowImage,handed⟩ := fits
  generalize pagesIs : program_pages ((underPaging trampoline).access w.kernel) fs name w.kernel = pages at belowImage handed
  have bound : pages ≤ MAX_FRAMES := by
    have := pageOf_lt b.kernel_physical_start
    simp only [MAX_FRAMES]
    omega
  have count := process_create_pages ((underPaging trampoline).access w.kernel) trampoline fs name w.kernel
  rw [pagesIs] at count
  have table := process_create_table ((underPaging trampoline).access w.kernel) trampoline fs name w.kernel
  change (w.call (underPaging trampoline) fs name).code_pages ≤ pages ∧ _ at count
  change (w.call (underPaging trampoline) fs name).Table w.kernel at table
  generalize w.call (underPaging trampoline) fs name = c at image count table
  have next : Next (fun f => pages ≤ f ∧ f ≠ 0xBFFFF) w.frames :=
    handed_next (n := 2+2*pages+1) handed
  refine ⟨image,⟨?_,?_,?_,?_,?_⟩⟩
  · intro c' logged v below
    refine image.grows v ?_
    rcases List.mem_cons.mp logged with rfl | old
    · exact next_used bound (fun f inside free least => (next f inside free least).1) v (by omega)
    · exact steady.code c' old v below
  · intro c' logged
    rcases List.mem_cons.mp logged with rfl | old
    · omega
    · exact steady.image c' old
  · intro c' logged created
    rcases List.mem_cons.mp logged with rfl | old
    · obtain ⟨i,slot⟩ := Option.ne_none_iff_exists'.mp created
      obtain ⟨_,_,_,_,gotStack,stack,_⟩ := table.filled i slot
      rcases pfa_alloc_cases w.kernel.phys.frames with ⟨failed,_⟩ | ⟨f,inside,free,least,found⟩
      · rw [failed] at stack
        exact absurd stack gotStack
      · obtain ⟨above,notStack⟩ := next f inside free least
        rw [stack,found]
        change c'.code_pages ≤ pageOf (pageAddr f) ∧ pageOf (pageAddr f) ≠ 0xBFFFF
        rw [pageOf_pageAddr inside]
        exact ⟨by omega,notStack⟩
    · exact steady.stack c' old created
  · refine represents_congr steady.bootDir (fun a owns => image.off a (fun took => ?_))
    have used := inv.grows _ bootUsed
    rw [← bootDir_owns owns] at used
    change is_used w.kernel.phys.frames (pageOf a) = true at used
    rw [took.1] at used
    cases used
  · have cr3 := table.cr3
    rcases steady.loaded with boot | ⟨c',logged,nonzero,loaded⟩
    · exact .inl (cr3.trans boot)
    · exact .inr ⟨c',List.mem_cons_of_mem _ logged,nonzero,cr3.trans loaded⟩

/-- Its kernel stack is filled in. -/
theorem create_newStack {trampoline : Word} {fs : FsInstance} {name : List Byte} (inv : Separate start w book)
    (steady : Steady b w) (bootUsed : is_used start (pageOf b.page_directory) = true)
    (fits : Fits b trampoline fs w (.create name)) : NewStack trampoline (w.call (underPaging trampoline) fs name) :=
  process_create_newStack (steady_sees inv steady bootUsed) inv.zero _ fs name (fits_handed fits)

theorem switch_steady (inv : Separate start w book) (steady : Steady b w) {k : Kernel} (switches : Switches w.kernel k) :
    Steady b { w with kernel := k } := by
  have phys := switches.phys
  refine ⟨?_,steady.image,steady.stack,?_,?_⟩
  · simpa only [World.frames,phys] using steady.code
  · simpa only [World.mem,phys] using steady.bootDir
  · rcases switches.cr3 with same | ⟨i,alive,loaded⟩
    · rcases steady.loaded with boot | ⟨c,logged,nonzero,before⟩
      · exact .inl (same.trans boot)
      · exact .inr ⟨c,logged,nonzero,same.trans before⟩
    · obtain ⟨c,logged,_,nonzero,dir,_⟩ := inv.slots i alive
      exact .inr ⟨c,logged,nonzero,loaded.trans dir⟩

theorem mem_steady (steady : Steady b w) {m : Memory} (same : ∀ a, pageOf a = pageOf b.page_directory → m a = w.mem a) :
    Steady b { w with kernel := w.kernel.setMem m } :=
  ⟨steady.code,steady.image,steady.stack,represents_congr steady.bootDir (fun a owns => same a (bootDir_owns owns)),
    steady.loaded⟩

/-- A store to a frame that some call has taken. -/
theorem store_steady (inv : Separate start w book) (steady : Steady b w)
    (bootUsed : is_used start (pageOf b.page_directory) = true) {e : Creation × Ghost} (member : e ∈ book) {a : Word}
    (v : Byte) (taken : e.2.taken (pageOf a)) : Steady b (w.store a v) := by
  refine mem_steady steady (m := write8 w.mem a v) ?_
  intro a' inDir
  have other : a' ≠ a := by
    rintro rfl
    have free := (inv.taken e member _ taken).1
    rw [inDir,bootUsed] at free
    cases free
  simp [write8,other]

theorem step_steady {trampoline : Word} {fs : FsInstance} {action : Action} {w' : World} (inv : Separate start w book)
    (steady : Steady b w) (bootUsed : is_used start (pageOf b.page_directory) = true)
    (step : Step (underPaging trampoline) fs w action w') (fits : Fits b trampoline fs w action) :
    (∃ book', Separate start w' book') ∧ Steady b w' := by
  have separate : ∃ book', Separate start w' book' := by
    refine step_separate inv step ?_
    rintro name rfl
    exact (create_steady inv steady bootUsed fits).1
  refine ⟨separate,?_⟩
  cases step with
  | create name => exact (create_steady inv steady bootUsed fits).2
  | start k started => exact switch_steady inv steady (start_switches started)
  | schedule esp => exact switch_steady inv steady (schedule_switches _ esp)
  | exit cur esp current => exact switch_steady inv steady (exit_switches _ cur esp)
  | userStore i virt t v alive found user =>
    obtain ⟨e,member,taken,_⟩ := user_target inv alive found user
    exact store_steady inv steady bootUsed member v taken
  | stackStore i a v alive inStack =>
    obtain ⟨e,member,taken,_⟩ := stack_target inv alive inStack
    exact store_steady inv steady bootUsed member v taken

end

theorem run_steady {b : Setup} {fuel : Nat} {k : Kernel} {fs : FsInstance} (boot : kmain fuel b = some (k,fs))
    {trampoline : Word} {w : World} (run : Run (underPaging trampoline) fs (Fits b trampoline fs) ⟨k,[]⟩ w) :
    (∃ book, Separate k.phys.frames w book) ∧ Steady b w := by
  have bootUsed := kmain_image boot bootDir_shares
  induction run with
  | refl =>
    refine ⟨⟨[],separate_nil (kmain_zero boot) ?_⟩,by simp,by simp,by simp,kmain_directory boot,?_⟩
    · obtain ⟨_,_,_,rfl⟩ := kmain_started boot
      exact fun _ => rfl
    · obtain ⟨_,_,_,rfl⟩ := kmain_started boot
      exact .inl rfl
  | tail _ step ih =>
    obtain ⟨⟨book,inv⟩,steady⟩ := ih
    obtain ⟨action,fits,step⟩ := step
    exact step_steady inv steady bootUsed step fits

/-- In every run in which the programs that are created fit, each process reaches
    its kernel stack and the kernel image through its directory, in every state. -/
theorem kernel_stack_reachable {b : Setup} (low : b.kernel_physical_end.toNat ≤ 0xBFFFF000) {fuel : Nat} {k : Kernel}
    {fs : FsInstance} (boot : kmain fuel b = some (k,fs)) {trampoline : Word} {w : World}
    (run : Run (underPaging trampoline) fs (Fits b trampoline fs) ⟨k,[]⟩ w) :
    (∀ c ∈ w.log, c.slot ≠ none → Reaches b w.mem c) ∧
      ∀ i, (w.kernel.procs i).state ≠ .dead → ∃ c ∈ w.log, c.slot = some i ∧
        (w.kernel.procs i).page_dir_phys = c.user_dir ∧ (w.kernel.procs i).kernel_stack = c.kernel_stack := by
  obtain ⟨⟨book,inv⟩,steady⟩ := run_steady boot run
  refine ⟨?_,?_⟩
  · intro c logged created a inside
    obtain ⟨g,member⟩ := mem_book inv logged
    have describes := inv.describes _ member
    obtain ⟨_,space⟩ := describes.dir (describes.created created)
    refine space_identity space ?_ ?_
    · rcases inside with ⟨first,last⟩ | ⟨first,last⟩
      · obtain ⟨above,_⟩ := steady.stack c logged created
        simp only [pageOf] at above ⊢
        omega
      · have above := steady.image c logged
        simp only [pageOf] at above ⊢
        omega
    · rcases inside with ⟨first,last⟩ | ⟨first,last⟩
      · obtain ⟨_,notStack⟩ := steady.stack c logged created
        have aligned := space.stackAligned
        simp only [PageAligned] at aligned
        simp only [pageOf] at notStack ⊢
        omega
      · simp only [pageOf]
        omega
  · intro i alive
    obtain ⟨c,logged,slot,_,rest⟩ := inv.slots i alive
    exact ⟨c,logged,slot,rest⟩

/-- Conversely, when the first program is longer than the memory below the lowest free
    frame, and memory suffices for it, its code lies over its kernel stack. -/
theorem kernel_stack_covered {b : Setup} {fuel : Nat} {k : Kernel} {fs : FsInstance} (boot : kmain fuel b = some (k,fs))
    (trampoline : Word) (name : List Byte) {first len : Nat} (positive : 0 < first)
    (below : ∀ f < first, is_used k.phys.frames f = true) (free : FreeRun k.phys.frames first len)
    (inside : first+len ≤ MAX_FRAMES) (long : most_frames (program_pages (paged k.cr3) fs name k) < len)
    (program : ¬ fs_find (seen (paged k.cr3) k.phys.mem) fs name < 0)
    (covered : first < program_pages (paged k.cr3) fs name k) (notStack : first ≠ 0xBFFFF) :
    ∃ w c, Run (underPaging trampoline) fs (fun _ _ => True) ⟨k,[]⟩ w ∧ c ∈ w.log ∧ c.slot ≠ none ∧
      c.kernel_stack = pageAddr first ∧ (∃ t, translate w.mem c.user_dir c.kernel_stack = some t ∧ t.user = true) ∧
      ¬ Reaches b w.mem c := by
  have bootUsed := kmain_image boot bootDir_shares
  have started : k.cr3 = b.page_directory ∧ free_slot k.procs = some 0 := by
    obtain ⟨_,_,_,rfl⟩ := kmain_started boot
    exact ⟨rfl,rfl⟩
  have sees : Sees (paged k.cr3) k.phys.mem (Free k.phys.frames) := by
    rw [started.1]
    refine paged_sees (kmain_directory boot) ?_ (fun _ _ => rfl)
    intro f owns free
    rw [bootDir_owns owns,Free,bootUsed] at free
    cases free
  have image := process_create_image sees (below 0 positive) trampoline fs name (handed_free (grows_refl _) _)
  obtain ⟨created,_,stack,t,found,user,_⟩ := process_create_user_page (paged k.cr3) trampoline fs name image positive below
    free inside long started.2 program covered notStack (by simp only [MAX_FRAMES] at inside; omega)
  refine ⟨_,_,.single ⟨_,trivial,Step.create _ name⟩,List.mem_cons_self,created,stack,⟨t,?_,user⟩,?_⟩
  · change translate (process_create (paged k.cr3) trampoline fs name k).kernel.phys.mem
      (process_create (paged k.cr3) trampoline fs name k).user_dir
      (process_create (paged k.cr3) trampoline fs name k).kernel_stack = some t
    rw [stack]
    exact found
  · change ¬ Reaches b (process_create (paged k.cr3) trampoline fs name k).kernel.phys.mem
      (process_create (paged k.cr3) trampoline fs name k)
    intro reaches
    have identity := reaches (pageAddr first) (.inl (by rw [stack]; omega))
    rw [found,Option.some_inj] at identity
    rw [identity] at user
    cases user

/-! ### The small PC -/

/-- Under the boot directory the kernel sees memory as it is. -/
theorem boot_seen {m : Memory} {dir : Word} (rep : Represents m dir (fun _ => none) (fun _ => none)) :
    seen (paged dir) m = m := by
  funext a
  have identity : paged dir m a = a := by simp [paged,translate_correct rep,view]
  exact congrArg m identity

theorem pc_seen (frames : Frames) : seen (paged (pcKernel frames).cr3) (pcKernel frames).phys.mem = pc.mem := by
  obtain ⟨frames',_,boot⟩ := pc_kmain
  exact boot_seen (kmain_directory boot)

theorem handed_run {F : Nat → Prop} {s : Frames} {n first len : Nat} (fits : n ≤ len)
    (below : ∀ f < first, is_used s f = true) (free : FreeRun s first len)
    (inF : ∀ f, first ≤ f → f < first+len → F f) : Handed F n s := by
  induction n generalizing s first len with
  | zero => trivial
  | succ n ih =>
    intro f inside freeF least
    have isFirst : f = first := by
      rcases Nat.lt_trichotomy f first with lt | same | gt
      · rw [below f lt] at freeF
        cases freeF
      · exact same
      · have lower := least first gt
        rw [free first (le_refl _) (by omega)] at lower
        cases lower
    have belowNext : ∀ g < first+1, is_used (mark_used s f) g = true := by
      intro g lt
      by_cases same : g = f
      · simp [same]
      · simp [below g (by omega)]
    have freeNext : FreeRun (mark_used s f) (first+1) (len-1) := by
      intro g low high
      simp [free g (by omega) (by omega),show g ≠ f by omega]
    exact ⟨inF f (by omega) (by omega),ih (by omega) belowNext freeNext (fun g low high => inF g (by omega) (by omega))⟩

/-- `hello` fits on the small PC. -/
theorem hello_fits {frames : Frames} (ended : pc.init 3 = some frames) (trampoline : Word) :
    Fits pcSetup trampoline pcFs ⟨pcKernel frames,[]⟩ (.create helloName) ∧
      (process_create (paged (pcKernel frames).cr3) trampoline pcFs helloName (pcKernel frames)).slot ≠ none ∧
      (process_create (paged (pcKernel frames).cr3) trampoline pcFs helloName (pcKernel frames)).kernel_stack = 0x1000#32 := by
  obtain ⟨below,free⟩ := pc_free ended
  obtain ⟨find,pages,_⟩ := pc_programs
  have onePage : program_pages (paged (pcKernel frames).cr3) pcFs helloName (pcKernel frames) = 1 := by
    rw [program_pages,pc_seen,find]
    exact pages
  obtain ⟨created,_,stack⟩ := process_create_succeeds (paged (pcKernel frames).cr3) trampoline pcFs helloName (by decide)
    below free (by decide) (by rw [onePage]; decide) (show free_slot (pcKernel frames).procs = some 0 from rfl)
    (by rw [pc_seen,find]; decide)
  refine ⟨?_,created,stack⟩
  rw [Fits]
  change program_pages (paged (pcKernel frames).cr3) pcFs helloName (pcKernel frames) ≤ _ ∧ _
  rw [show program_pages ((underPaging trampoline).access (World.mk (pcKernel frames) []).kernel) pcFs helloName
    (World.mk (pcKernel frames) []).kernel = 1 from onePage,onePage]
  exact ⟨by decide,handed_run (by decide) below free (fun f low high => ⟨low,by omega⟩)⟩

/-- Any of the three programs fits while `kmain` runs. -/
theorem stocked_fits {k : Kernel} {count : Nat} (stocked : Stocked k (count+1)) (cr3 : k.cr3 = 0x104000#32) {name : List Byte}
    (known : name ∈ [helloName,shellName,topName]) (trampoline : Word) (log : List Creation) :
    (∀ a, seen (paged k.cr3) k.phys.mem a = k.phys.mem a) ∧ Fits trio trampoline pcFs ⟨k,log⟩ (.create name) := by
  have rep : Represents k.phys.mem 0x104000#32 (fun _ => none) (fun _ => none) :=
    boot_directory (b := trio) (fun a page => stocked.same a (.inl (page.trans (by decide))))
  have same : ∀ a, seen (paged k.cr3) k.phys.mem a = k.phys.mem a := by
    intro a
    rw [cr3,boot_seen rep]
  obtain ⟨_,onePage⟩ := stocked_program (fun a _ => same a) known stocked
  obtain ⟨first,len,positive,inside,long,below,free⟩ := stocked.room
  refine ⟨same,?_⟩
  rw [Fits]
  change program_pages (paged k.cr3) pcFs name k ≤ _ ∧ Handed _ (most_frames (program_pages (paged k.cr3) pcFs name k)) _
  rw [show program_pages ((underPaging trampoline).access (World.mk k log).kernel) pcFs name (World.mk k log).kernel = 1 from
    onePage,onePage]
  refine ⟨by decide,handed_run (show 6 ≤ len by omega) below free (fun f low high => ⟨by omega,by omega⟩)⟩

theorem kernel_stack_reachable_pc : ∃ frames w c, kmain 3 pcSetup = some (pcKernel frames,pcFs) ∧
    Run (underPaging 0x100010#32) pcFs (Fits pcSetup 0x100010#32 pcFs) ⟨pcKernel frames,[]⟩ w ∧ c ∈ w.log ∧
    c.kernel_stack = 0x1000#32 ∧ Reaches pcSetup w.mem c := by
  obtain ⟨frames,ended,boot⟩ := pc_kmain
  obtain ⟨fits,created,stack⟩ := hello_fits ended 0x100010#32
  have run : Run (underPaging 0x100010#32) pcFs (Fits pcSetup 0x100010#32 pcFs) ⟨pcKernel frames,[]⟩ _ :=
    .single ⟨_,fits,Step.create _ helloName⟩
  exact ⟨frames,_,_,boot,run,List.mem_cons_self,stack,
    (kernel_stack_reachable (by decide) boot run).1 _ List.mem_cons_self created⟩

/-- `shell` does not: its second page lies over its own kernel stack. -/
theorem kernel_stack_covered_pc : ∃ frames w c, kmain 3 pcSetup = some (pcKernel frames,pcFs) ∧
    Run (underPaging 0x100010#32) pcFs (fun _ _ => True) ⟨pcKernel frames,[]⟩ w ∧ c ∈ w.log ∧ c.slot ≠ none ∧
    c.kernel_stack = 0x1000#32 ∧ (∃ t, translate w.mem c.user_dir c.kernel_stack = some t ∧ t.user = true) ∧
    ¬ Reaches pcSetup w.mem c := by
  obtain ⟨frames,ended,boot⟩ := pc_kmain
  obtain ⟨below,free⟩ := pc_free ended
  obtain ⟨_,_,find,pages⟩ := pc_programs
  have twoPages : program_pages (paged (pcKernel frames).cr3) pcFs shellName (pcKernel frames) = 2 := by
    rw [program_pages,pc_seen,find]
    exact pages
  obtain ⟨w,c,run,rest⟩ := kernel_stack_covered boot 0x100010#32 shellName (by decide) below free (by decide)
    (by rw [twoPages]; decide) (by rw [pc_seen,find]; decide) (by rw [twoPages]; decide) (by decide)
  exact ⟨frames,w,c,boot,run,rest⟩

end SoKernel.StackReach
