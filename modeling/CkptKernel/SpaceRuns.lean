/-
Address spaces along runs of system calls and page faults.  As long as sbrk is
not asked for memory at or above the trapframe, user memory stays below it, and
every page table has the shape that the size of its process says.
-/
import CkptKernel.SpaceExec

namespace CkptKernel

open ByteMem Code Machine

inductive Trap where
  | syscall (call : Call)
  | sbrk (n t : Int32)
  | fault (va : Nat)
  | exec (path : Name) (uargv : Nat)
  | wait (addr : Nat)
  | pipe (fdarray : Nat)

def Trap.code (p : Slot) : Trap → Code Kernel Unit
  | .syscall call => call.code p
  | .sbrk n t => do
    let _ ← inVm p (sysSbrk n t)
  | .fault va => usertrapFault p va
  | .exec path uargv => do
    let _ ← sysExec p path uargv
  | .wait addr => do
    let _ ← kwait p addr
  | .pipe fdarray => do
    let _ ← sysPipe p fdarray

/-- One trap of a process that runs, from its entry to its return. -/
def trapStep (kernel : Kernel) (event : Slot × Trap) : Option Kernel :=
  if kernel.CanRun event.1 then
    outcome (fun _ kernel' => kernel') (event.2.code event.1 kernel)
  else none

/-- The kernel when `main` calls `userinit`, as far as memory is concerned:
the frames of `taken` are kernel stacks, kernel page tables and queue pages. -/
structure Kernel.ColdSpaces (taken : List Frame) (kernel : Kernel) : Prop where
  proc : ∀ p, (kernel.proc p).space = .empty
  pipe : ∀ pi, kernel.pipe pi = none
  frames : (taken ++ kernel.mem.free).Nodup

/-- Each frame that the allocator had at the start is there once. -/
def poolOf (taken : List Frame) (cold : Kernel) (counted : Prop) : Pool :=
  ⟨fun f => (taken ++ cold.mem.free).count f, cold.FilesClosed, counted⟩

/-- The frames of `taken` belong to nobody else. -/
def takenBy (taken : List Frame) (f : Frame) : Int := taken.count f

variable {taken : List Frame} {cold : Kernel} {counted : Prop}

theorem poolOf_le (hnodup : (taken ++ cold.mem.free).Nodup) (f : Frame) :
    poolOf taken cold counted f ≤ 1 :=
  List.nodup_iff_count_le_one.mp hnodup f

theorem takenBy_nonneg (taken : List Frame) (f : Frame) :
    0 ≤ takenBy taken f := Int.natCast_nonneg _

/-- What holds of a kernel that started as `cold`, with the frames `taken`. -/
def Kernel.InOrder (taken : List Frame) (kernel cold : Kernel) : Prop :=
  kernel.Spaces (poolOf taken cold False) (takenBy taken) none

variable {kernel : Kernel}

theorem Kernel.ColdSpaces.spaces (hcold : kernel.ColdSpaces taken)
    (hclosed : counted → kernel.FilesClosed) :
    kernel.Spaces (poolOf taken kernel counted) (takenBy taken) none := by
  refine ⟨fun p _ => hcold.proc p ▸ ProcSpace.empty_sound, fun f => ?_, fun hfiles =>
    .start hfiles.type hcold.pipe, fun hcounted f => ?_⟩
  rotate_left
  · simp [Kernel.slack, Proc.fdsOn, (hclosed hcounted).ref, (hclosed hcounted).ofile]
  have huses : kernel.uses f = 0 := by
    rw [Kernel.uses, hcold.pipe, Option.elim_none, Nat.add_zero]
    refine Finset.sum_eq_zero fun p _ => ?_
    rw [hcold.proc]
    rfl
  rw [huses]
  dsimp only [poolOf, takenBy]
  rw [List.count_append]
  push_cast
  ring

theorem keeps_userinit {total : Pool} {extra : Frame → Int} :
    Keeps Sane (Kernel.Spaces total extra none) userinit := by
  intro kernel hspaces
  refine ends_seq (ends_allocproc hspaces) fun result kernel₁ hdone => ?_
  cases result with
  | none => exact sane_panic (by decide)
  | some p =>
    obtain ⟨_, space, hnew, hwork⟩ := hdone
    exact leads_bind (keeps_inFs (quiet_namei sane_free sane_lock _ _))
      (fun _ => leads_bind (fun _ hwork₂ => hwork₂.set_state .RUNNABLE fun _ => ⟨rfl, rfl⟩)
        fun _ => (keeps_release _).imp fun _ _ hwork₃ =>
          hwork₃.finish (hnew.sound.with_state hnew.state (by simp))) _ hwork

/-- The running process does not grow lazily past the trapframe. -/
def GrowsBelow (kernel : Kernel) (event : Slot × Trap) : Prop :=
  match event.2 with
  | .sbrk n t => kernel.CanRun event.1 →
      LazyFits (kernel.proc event.1).sz n t
  | _ => True

instance (kernel : Kernel) (event : Slot × Trap) : Decidable (GrowsBelow kernel event) := by
  unfold GrowsBelow
  split <;> infer_instance

/-- Eager growth gets as far as the trapframe. -/
def Overgrows (kernel : Kernel) (event : Slot × Trap) : Prop :=
  match event.2 with
  | .sbrk n t => t = SBRK_EAGER ∧ 0 < n ∧
      TRAPFRAME < addSz (kernel.proc event.1).sz n ∧
      TOP - pagesOf (kernel.proc event.1).sz < kernel.mem.free.length
  | _ => False

instance (kernel : Kernel) (event : Slot × Trap) : Decidable (Overgrows kernel event) := by
  unfold Overgrows
  split <;> infer_instance

/-- A checkpoint that is restored has its pipes paired. -/
def TrapsPaired (kernel : Kernel) (event : Slot × Trap) : Prop :=
  match event.2 with
  | .syscall call => RestoresPaired kernel event.1 call
  | _ => True

instance (kernel : Kernel) (event : Slot × Trap) : Decidable (TrapsPaired kernel event) := by
  unfold TrapsPaired
  split <;> infer_instance

section Step

variable {total : Pool} {extra : Frame → Int} {kernel : Kernel} (hsole : total.Sole extra)

include hsole

/-- Each trap keeps every address space in order. -/
theorem ends_trap (hinv : kernel.Spaces total extra none) {p : Slot} (hrun : kernel.CanRun p)
    {trap : Trap} (hfits : GrowsBelow kernel (p, trap))
    (hpaired : total.counted → TrapsPaired kernel (p, trap)) :
    ends (trap.code p) kernel (fun _ => Kernel.Spaces total extra none)
      (fun reason => Sane reason ∨ Overgrows kernel (p, trap)) := by
  have hsane : ∀ {code : Code Kernel Unit},
      ends code kernel (fun _ => Kernel.Spaces total extra none) Sane →
      ends code kernel (fun _ => Kernel.Spaces total extra none)
        (fun reason => Sane reason ∨ Overgrows kernel (p, trap)) :=
    fun hcode => ends_imp hcode (fun _ _ h => h) fun _ => Or.inl
  have hthen : ∀ {A : Type} {code : Code Kernel A},
      ends code kernel (fun _ => Kernel.Spaces total extra none) Sane →
      ends (code >>= fun _ => pure ()) kernel (fun _ => Kernel.Spaces total extra none)
        (fun reason => Sane reason ∨ Overgrows kernel (p, trap)) :=
    fun hcode => hsane (ends_bind.mpr hcode)
  cases trap with
  | syscall call => exact hsane (ends_call_spaces hinv hsole hrun hpaired)
  | sbrk n t =>
    refine ends_bind.mpr (ends_mono (ends_inVm hinv
      (Or.inl (sane_panic (by decide))) ?_) fun _ _ h => h.spaces)
    intro vm tf hmem hsz hspace
    refine ends_imp (ends_sysSbrk hspace ?_) (fun _ _ h => h) ?_
    · rw [hsz]
      exact hfits hrun
    · rintro _ ⟨heager, hpos, hover, hmany⟩
      rw [hsz] at hover hmany
      rw [hmem] at hmany
      exact Or.inr ⟨heager, hpos, hover, hmany⟩
  | fault va => exact hsane (ends_usertrapFault hinv hrun.live va)
  | exec path uargv =>
    exact hthen (keeps_sysExec hsole path uargv _ hinv)
  | wait addr =>
    exact hthen (leads_bind (keeps_acquire _) (fun _ => keeps_kwaitFrom addr _ _) _ hinv)
  | pipe fdarray =>
    exact hthen (keeps_sysPipe hsole fdarray _ hinv)

theorem trapStep_spaces {next : Kernel} {event : Slot × Trap}
    (hinv : kernel.Spaces total extra none) (hfits : GrowsBelow kernel event)
    (hpaired : total.counted → TrapsPaired kernel event)
    (hstep : trapStep kernel event = some next) : next.Spaces total extra none := by
  unfold trapStep at hstep
  split at hstep
  next hrun =>
    obtain ⟨_, kernel', hcode, rfl⟩ := outcome_eq_some hstep
    exact wlp_of_ends (ends_trap hsole hinv hrun hfits hpaired) _ _ hcode
  · cases hstep

omit hsole in
theorem trapStep_inOrder {taken : List Frame} {cold : Kernel}
    (hnodup : (taken ++ cold.mem.free).Nodup) {next : Kernel} {event : Slot × Trap}
    (hinv : kernel.InOrder taken cold) (hfits : GrowsBelow kernel event)
    (hstep : trapStep kernel event = some next) : next.InOrder taken cold :=
  trapStep_spaces ⟨poolOf_le hnodup, takenBy_nonneg taken⟩ hinv hfits False.elim hstep

end Step

/-! ### User memory stays below the trapframe -/

theorem not_walk_panic {S A : Type} {code : Code S A} {state : S} {post : A → S → Prop}
    (hcode : ends code state post Sane) : code state ≠ .error (.panic "walk") := by
  intro hpanic
  unfold ends at hcode
  rw [hpanic] at hcode
  exact hcode "walk" (by decide) rfl

/-- The address space of a process with trapframe `tf`: nothing the kernel does
with user addresses makes `walk` panic, and shrinking leaves the trapframe
where it is. -/
structure Vm.BelowTrapframe (vm : Vm) (tf : Frame) : Prop where
  sz : vm.sz ≤ TRAPFRAME
  fault : ∀ va, vmfault none va vm ≠ .error (.panic "walk")
  copyin : ∀ dst srcva len, copyin none dst srcva len vm ≠ .error (.panic "walk")
  copyout : ∀ dstva src len, copyout none dstva src len vm ≠ .error (.panic "walk")
  free : procFreepagetable vm.pagetable vm.sz vm.mem ≠ .error (.panic "walk")
  covered : ∀ va < vm.sz, va / PGSIZE ≠ TRAPFRAME / PGSIZE ∧ va / PGSIZE ≠ TRAMPOLINE / PGSIZE
  shrink : ∀ n t result vm', n < 0 → sysSbrk n t vm = .ok (result, vm') →
    vm'.pagetable.page TOP = some ⟨.frame tf, trapframePerm⟩ ∧ tf ∉ vm'.mem.free

/-- User memory is below the trapframe in every process. -/
def Kernel.UserBelow (kernel : Kernel) : Prop :=
  ∀ p, (kernel.proc p).sz ≤ TRAPFRAME ∧ ∀ pt, (kernel.proc p).pagetable = some pt →
      ∃ tf, (kernel.proc p).trapframe = some tf ∧
        Vm.BelowTrapframe ⟨kernel.mem, (kernel.proc p).sz, pt⟩ tf

section Below

variable {taken : List Frame} {cold kernel : Kernel}

/-- The trapframe is not used for anything else. -/
theorem Kernel.InOrder.trapframe_alone (hnodup : (taken ++ cold.mem.free).Nodup)
    (hinv : kernel.InOrder taken cold) {p : Slot} {tf : Frame}
    (htf : (kernel.proc p).trapframe = some tf) :
    kernel.mem.free.count tf + ownedBy (kernel.proc p).pagetable tf = 0 := by
  have hframes := hinv.frames tf
  have hle := @poolOf_le taken cold False hnodup tf
  have hextra := takenBy_nonneg taken tf
  have hshare := TableSum.le_sum (fun proc => Proc.space proc |>.uses tf) kernel.proc p
  have hone : pageIs (kernel.proc p).space.trapframe tf = 1 := by
    rw [show (kernel.proc p).space.trapframe = some tf from htf]
    exact if_pos rfl
  unfold Kernel.uses at hframes
  rw [ProcSpace.uses, hone] at hshare
  change ownedBy (kernel.proc p).pagetable tf + 1 ≤ _ at hshare
  generalize ownedBy (kernel.proc p).pagetable tf = owned at hshare ⊢
  omega

theorem PageTable.Space.sz_le {pt : PageTable} {sz : Nat} {tf : Frame}
    (hspace : pt.Space (pagesOf sz) tf) : sz ≤ TRAPFRAME :=
  pagesOf_le_TOP.mp hspace.le

theorem Kernel.InOrder.userBelow (hnodup : (taken ++ cold.mem.free).Nodup)
    (hinv : kernel.InOrder taken cold) : kernel.UserBelow := by
  intro p
  have hsound := hinv.sound p (by simp)
  cases hpt : (kernel.proc p).pagetable with
  | none =>
    refine ⟨?_, by simp⟩
    have hunused : (kernel.proc p).state = .UNUSED := by
      by_contra hlive
      exact hsound.live hlive hpt
    have hzero : (kernel.proc p).sz = 0 :=
      congrArg ProcSpace.sz (hsound.unused hunused)
    omega
  | some pt =>
    obtain ⟨tf, htf, hspace⟩ := hsound.shaped pt hpt
    have hspace : pt.Space (pagesOf (kernel.proc p).sz) tf := hspace
    refine ⟨hspace.sz_le, ?_⟩
    rintro _ ⟨⟩
    refine ⟨tf, htf, hspace.sz_le, fun va => ?_, fun dst srcva len => ?_,
      fun dstva src len => ?_, ?_, fun va hva => ?_, ?_⟩
    · exact not_walk_panic (orderly_vmfault va _ (.refl hspace))
    · exact not_walk_panic (orderly_copyinFrom _ _ _ _ _ _ (.refl hspace))
    · exact not_walk_panic (orderly_copyoutFrom _ _ _ _ _ (.refl hspace))
    · exact not_walk_panic (ends_of_wp (wp_procFreepagetable hspace kernel.mem))
    · have hlt := page_lt_pagesOf hva
      have hle := hspace.le
      have hframe : TRAPFRAME / PGSIZE = TOP := by decide
      have hline : TRAMPOLINE / PGSIZE = TOP + 1 := by decide
      rw [hframe, hline]
      dsimp only at hlt
      omega
    · intro n t result vm' hneg hcode
      have hlazy : LazyFits (kernel.proc p).sz n t := by
        intro _ hnn
        rw [Int32.lt_iff_toInt_lt] at hneg
        rw [Int32.le_iff_toInt_le] at hnn
        omega
      have hkept := wlp_of_ends (@ends_sysSbrk ⟨kernel.mem, _, pt⟩ tf n t hspace hlazy) _ _ hcode
      refine ⟨hkept.space.trapframe, fun hfree => ?_⟩
      have halone := hinv.trapframe_alone hnodup htf
      have hcount := hkept.count tf
      have hpos := List.count_pos_iff.mpr hfree
      rw [hpt, ownedBy_some] at halone
      dsimp only at hcount
      generalize vm'.pagetable.owns tf = after at hcount
      generalize pt.owns tf = before at hcount halone
      omega

/-- A process that grows lazily past the trapframe. -/
theorem trapStep_overgrown (hinv : kernel.InOrder taken cold)
    {event : Slot × Trap} (hover : ¬ GrowsBelow kernel event) :
    ∃ next, trapStep kernel event = some next ∧ ¬ ∀ p, (next.proc p).sz ≤ TRAPFRAME := by
  obtain ⟨p, trap⟩ := event
  cases trap with
  | sbrk n t =>
    obtain ⟨hrun, hlazy⟩ := Classical.not_imp.mp hover
    unfold LazyFits at hlazy
    simp only [Classical.not_imp, Nat.not_le] at hlazy
    obtain ⟨hmode, hnn, hpast⟩ := hlazy
    have hsound := hinv.sound p (by simp)
    obtain ⟨pt, hpt⟩ := Option.ne_none_iff_exists'.mp (hsound.live hrun.live)
    have hpt : (kernel.proc p).pagetable = some pt := hpt
    obtain ⟨_, _, hspace⟩ := hsound.shaped pt hpt
    have hle : (kernel.proc p).sz ≤ TRAPFRAME := hspace.sz_le
    have hneg : ¬ n < 0 := by
      rw [Int32.lt_iff_toInt_lt]
      rw [Int32.le_iff_toInt_le] at hnn
      omega
    have hcode : wp ((Trap.sbrk n t).code p) kernel (fun _ kernel' =>
        (kernel'.proc p).sz = addSz (kernel.proc p).sz n) := by
      unfold Trap.code inVm sysSbrk
      rw [wp_bind, wp_bind, wp_read, hpt]
      dsimp only
      rw [wp_within, wp_bind, wp_read, if_neg (not_or.mpr ⟨hmode, hneg⟩),
        if_neg (by dsimp only; omega), wp_bind, wp_update, wp_pure, wp_pure]
      dsimp only
      rw [Function.update_self]
    obtain ⟨value, next, hcode, hsz⟩ := hcode
    refine ⟨next, ?_, fun hbelow => ?_⟩
    · rw [trapStep, if_pos hrun, hcode]
      rfl
    · have := hbelow p
      omega
  | syscall call => exact (hover trivial).elim
  | fault va => exact (hover trivial).elim
  | exec path uargv => exact (hover trivial).elim
  | wait addr => exact (hover trivial).elim
  | pipe fdarray => exact (hover trivial).elim

end Below

/-- The kernel once the first process is there. -/
def started (kernel : Kernel) : Option Kernel :=
  outcome (fun _ kernel' => kernel') (userinit kernel)

theorem Kernel.ColdSpaces.start {first : Kernel} (hcold : kernel.ColdSpaces taken)
    (hclosed : counted → kernel.FilesClosed) (hstart : started kernel = some first) :
    first.Spaces (poolOf taken kernel counted) (takenBy taken) none := by
  obtain ⟨_, kernel', hcode, rfl⟩ := outcome_eq_some hstart
  exact wlp_of_ends (keeps_userinit _ (hcold.spaces hclosed)) _ _ hcode

/-- User memory is below the trapframe in every state of a run exactly if no
process grows lazily past it. -/
theorem user_below_trapframe_iff {taken : List Frame} {kernel first : Kernel}
    (hcold : kernel.ColdSpaces taken) (hstart : started kernel = some first)
    (events : List (Slot × Trap)) : RunMeets trapStep GrowsBelow first events ↔
      ∀ n final, run trapStep first (events.take n) = some final → final.UserBelow :=
  runMeets_iff (fun _ hinv => Kernel.InOrder.userBelow hcold.frames hinv)
    (fun _ _ _ hinv hfits hstep =>
      trapStep_inOrder hcold.frames hinv hfits hstep)
    (fun _ _ hinv hover => (trapStep_overgrown hinv hover).imp fun _ hnext =>
      ⟨hnext.1, fun hbelow => hnext.2 fun p => (hbelow p).1⟩)
    (hcold.start False.elim hstart)

/-- No process yet; sixteen pages are free. -/
def coldKernel : Kernel :=
  { bootKernel with
    proc := fun _ => ⟨.UNUSED, false, 0, 0, none, 0, none, none, fun _ => none, none, fun _ => 0⟩
    nextpid := 1 }

theorem coldKernel_cold : coldKernel.ColdSpaces [] :=
  ⟨fun _ => rfl, fun _ => rfl, by decide⟩

theorem coldKernel_closed : coldKernel.FilesClosed :=
  ⟨fun _ => rfl, fun _ => rfl, fun _ _ => rfl⟩

/-- Grow by two pages, touch one of them, and shrink again. -/
def smallGrowth : List (Slot × Trap) :=
  [(initproc, .sbrk 8192 SBRK_LAZY), (initproc, .fault 5000), (initproc, .sbrk (-5000) SBRK_EAGER)]

theorem user_below_trapframe_iff_small : ∃ first final, started coldKernel = some first ∧
      RunMeets trapStep GrowsBelow first smallGrowth ∧
      run trapStep first smallGrowth = some final ∧ final.UserBelow := by
  have hseen : ∃ first ∈ started coldKernel, RunMeets trapStep GrowsBelow first smallGrowth ∧
      (run trapStep first smallGrowth).isSome := by
    decide +kernel
  obtain ⟨first, hstart, hmeets, hsome⟩ := hseen
  obtain ⟨final, hrun⟩ := Option.isSome_iff_exists.mp hsome
  exact ⟨first, final, hstart, hmeets, hrun, (user_below_trapframe_iff
    coldKernel_cold hstart smallGrowth).mp hmeets 3 final hrun⟩

/-- The largest lazy steps, and a last one to the byte at `TRAPFRAME`. -/
def longGrowth : List (Slot × Trap) :=
  List.replicate 127 (initproc, .sbrk 2147483647 SBRK_LAZY) ++
    [(initproc, .sbrk 2147475584 SBRK_LAZY)]

/-- The first process grows over its trapframe, and frees it when it shrinks
again. -/
theorem trapframe_freed : ∃ first grown final tf,
    coldKernel.ColdSpaces [] ∧ started coldKernel = some first ∧
    run trapStep first longGrowth = some grown ∧ TRAPFRAME < (grown.proc initproc).sz ∧
    trapStep grown (initproc, .sbrk (-1) SBRK_EAGER) = some final ∧
    (final.proc initproc).trapframe = some tf ∧ tf ∈ final.mem.free := by
  have hseen : (started coldKernel).any (fun first =>
      (run trapStep first longGrowth).any (fun grown =>
        decide (TRAPFRAME < (grown.proc initproc).sz) &&
        (trapStep grown (initproc, .sbrk (-1) SBRK_EAGER)).any (fun final =>
          (final.proc initproc).trapframe.any (fun tf =>
            decide (tf ∈ final.mem.free))))) = true := by
    decide +kernel
  obtain ⟨first, hstart, hseen⟩ := (Option.any_eq_true _ _).mp hseen
  obtain ⟨grown, hgrown, hseen⟩ := (Option.any_eq_true _ _).mp hseen
  obtain ⟨hpast, hseen⟩ := Bool.and_eq_true_iff.mp hseen
  obtain ⟨final, hshrink, hseen⟩ := (Option.any_eq_true _ _).mp hseen
  obtain ⟨tf, htf, hfree⟩ := (Option.any_eq_true _ _).mp hseen
  exact ⟨first, grown, final, tf, coldKernel_cold, hstart, hgrown,
    of_decide_eq_true hpast, hshrink, htf, of_decide_eq_true hfree⟩

/-! ### Page tables match sizes -/

/-- Every process has user mappings below its size only, and the two mappings
that are not the user's. -/
def Kernel.TablesMatch (kernel : Kernel) : Prop :=
  ∀ p, (kernel.proc p).state ≠ .UNUSED → ∃ pt tf,
    (kernel.proc p).pagetable = some pt ∧ (kernel.proc p).trapframe = some tf ∧
    pt.Space (pagesOf (kernel.proc p).sz) tf

theorem Kernel.InOrder.tablesMatch (hinv : kernel.InOrder taken cold) : kernel.TablesMatch := by
  intro p hlive
  have hsound := hinv.sound p (by simp)
  obtain ⟨pt, hpt⟩ := Option.ne_none_iff_exists'.mp (hsound.live hlive)
  obtain ⟨tf, htf, hspace⟩ := hsound.shaped pt hpt
  exact ⟨pt, tf, hpt, htf, hspace⟩

/-- Growth of either kind stays below the trapframe, or eager growth runs out of
memory before. -/
def GrowthFits (kernel : Kernel) (event : Slot × Trap) : Prop :=
  GrowsBelow kernel event ∧ ¬ Overgrows kernel event

instance (kernel : Kernel) (event : Slot × Trap) : Decidable (GrowthFits kernel event) :=
  inferInstanceAs (Decidable (_ ∧ _))

theorem Kernel.ColdSpaces.sizes {taken : List Frame} {kernel first : Kernel}
    (hcold : kernel.ColdSpaces taken) (hstart : started kernel = some first)
    (events : List (Slot × Trap)) : RunMeets trapStep GrowsBelow first events ↔
      ∀ n final, Machine.run trapStep first (events.take n) = some final →
        ∀ p, (final.proc p).sz ≤ TRAPFRAME :=
  runMeets_iff (fun _ hinv p => (hinv.userBelow hcold.frames p).1) (fun _ _ _ hinv hfits hstep =>
      trapStep_inOrder hcold.frames hinv hfits hstep)
    (fun _ _ hinv hover => trapStep_overgrown hinv hover) (hcold.start False.elim hstart)

theorem Kernel.ColdSpaces.run {taken : List Frame} {kernel first final : Kernel}
    (hcold : kernel.ColdSpaces taken) (hstart : started kernel = some first)
    {events : List (Slot × Trap)} (hmeets : RunMeets trapStep GrowsBelow first events)
    (hrun : Machine.run trapStep first events = some final) : final.InOrder taken kernel :=
  run_invariant (fun _ _ _ hinv hfits hstep =>
    trapStep_inOrder hcold.frames hinv hfits hstep) (hcold.start False.elim hstart) hmeets
    hrun

/-- In every run in which growth stays below the trapframe, page tables match
sizes, and no code on page tables panics in the next step either. -/
theorem tables_match {taken : List Frame} {kernel first final : Kernel}
    (hcold : kernel.ColdSpaces taken) (hstart : started kernel = some first)
    {events : List (Slot × Trap)} (hmeets : RunMeets trapStep GrowthFits first events)
    (hrun : run trapStep first events = some final) :
    final.TablesMatch ∧ ∀ event : Slot × Trap, final.CanRun event.1 →
      GrowthFits final event → ∀ message ∈ vmPanics,
        event.2.code event.1 final ≠ .error (.panic message) := by
  have hinv := hcold.run hstart (hmeets.imp fun _ _ h => h.1) hrun
  refine ⟨hinv.tablesMatch, ?_⟩
  rintro ⟨p, trap⟩ hcan ⟨hbelow, hnot⟩ message hmem hpanic
  have hends := ends_trap ⟨poolOf_le hcold.frames, takenBy_nonneg taken⟩ hinv hcan hbelow
    False.elim
  unfold ends at hends
  dsimp only at hpanic
  rw [hpanic] at hends
  rcases hends with hsane | hover
  · exact hsane message hmem rfl
  · exact hnot hover

/-- Grow both ways, fork and let the child exit. -/
def mixedGrowth : List (Slot × Trap) :=
  [(initproc, .sbrk 4096 SBRK_EAGER), (initproc, .sbrk 5000 SBRK_LAZY),
    (initproc, .syscall .sysFork), (secondProc, .fault 5000),
    (secondProc, .sbrk (-6000) SBRK_EAGER), (secondProc, .syscall (.sysExit 0)),
    (initproc, .wait 0)]

theorem mixedGrowth_runs : ∃ first final, started coldKernel = some first ∧
    RunMeets trapStep GrowthFits first mixedGrowth ∧
    run trapStep first mixedGrowth = some final := by
  have hseen : ∃ first ∈ started coldKernel, RunMeets trapStep GrowthFits first mixedGrowth ∧
      (run trapStep first mixedGrowth).isSome := by
    decide +kernel
  obtain ⟨first, hstart, hmeets, hsome⟩ := hseen
  obtain ⟨final, hrun⟩ := Option.isSome_iff_exists.mp hsome
  exact ⟨first, final, hstart, hmeets, hrun⟩

theorem tables_match_mixed : ∃ first final, started coldKernel = some first ∧
      RunMeets trapStep GrowthFits first mixedGrowth ∧
      run trapStep first mixedGrowth = some final ∧ final.TablesMatch := by
  obtain ⟨first, final, hstart, hmeets, hrun⟩ := mixedGrowth_runs
  exact ⟨first, final, hstart, hmeets, hrun, (tables_match coldKernel_cold hstart hmeets hrun).1⟩

def growthBelow : List (Slot × Trap) :=
  List.replicate 127 (initproc, .sbrk 2147483647 SBRK_LAZY) ++
    [(initproc, .sbrk 2147471487 SBRK_LAZY)]

/-- With all sizes at most `TRAPFRAME`, growing by two more pages maps the
trapframe's page again. -/
theorem eager_growth_remaps : ∃ first grown,
    coldKernel.ColdSpaces [] ∧ started coldKernel = some first ∧
    run trapStep first growthBelow = some grown ∧
    (∀ n state, run trapStep first (growthBelow.take n) = some state →
      ∀ p, (state.proc p).sz ≤ TRAPFRAME) ∧ (Trap.sbrk 8192 SBRK_EAGER).code initproc grown =
      .error (.panic "mappages: remap") := by
  have hseen : ∃ first ∈ started coldKernel, RunMeets trapStep GrowsBelow first growthBelow ∧
      ∃ grown ∈ run trapStep first growthBelow, stopped ((Trap.sbrk 8192 SBRK_EAGER).code initproc
        grown) = some (.panic "mappages: remap") := by
    decide +kernel
  obtain ⟨first, hstart, hmeets, grown, hgrown, hstop⟩ := hseen
  exact ⟨first, grown, coldKernel_cold, hstart, hgrown,
    (coldKernel_cold.sizes hstart growthBelow).mp hmeets, stopped_eq_some hstop⟩

/-! ### Every page has one place -/

/-- What a page of no process is: on the free list, taken at boot (a kernel
stack, a page table of the kernel or a queue of the disk), or a pipe. -/
inductive Common where
  | free
  | boot
  | pipe
deriving DecidableEq

instance : Fintype Common :=
  ⟨{.free, .boot, .pipe}, fun common => by cases common <;> decide⟩

inductive Role where
  | table
  | leaf
  | trapframe
deriving DecidableEq

instance : Fintype Role :=
  ⟨{.table, .leaf, .trapframe}, fun role => by cases role <;> decide⟩

abbrev Place := Common ⊕ Slot × Role

/-- How often `f` is the page of a user mapping. -/
def PageTable.leaves (pt : PageTable) (f : Frame) : Nat :=
  ∑ k ∈ Finset.range TOP, mapped (pt.page k) f

def Proc.times (proc : Proc) (f : Frame) : Role → Nat
  | .table => proc.pagetable.elim 0 (·.tables f)
  | .leaf => proc.pagetable.elim 0 (·.leaves f)
  | .trapframe => pageIs proc.trapframe f

/-- An open file is an end of the pipe in page `pi`. -/
def Kernel.IsPipe (kernel : Kernel) (pi : Frame) : Prop :=
  ∃ f, 0 < (kernel.file f).ref ∧ (kernel.file f).type = .pipe ∧ (kernel.file f).pipe = pi

instance (kernel : Kernel) (pi : Frame) : Decidable (kernel.IsPipe pi) :=
  inferInstanceAs (Decidable (∃ _ : FileRef, _))

/-- How often `f` is what a place says. -/
def Kernel.times (taken : List Frame) (kernel : Kernel) (f : Frame) : Place → Nat
  | .inl .free => kernel.mem.free.count f
  | .inl .boot => taken.count f
  | .inl .pipe => if kernel.IsPipe f then 1 else 0
  | .inr (p, role) => (kernel.proc p).times f role

theorem Common.sum (g : Common → Nat) : ∑ common, g common = g .free + (g .boot + g .pipe) := rfl

theorem Role.sum (g : Role → Nat) : ∑ role, g role = g .table + (g .leaf + g .trapframe) := rfl

theorem Proc.sum_times (proc : Proc) (f : Frame) :
    ∑ role, proc.times f role = proc.space.uses f := by
  have howns : ∀ pt : Option PageTable,
      pt.elim 0 (·.tables f) + pt.elim 0 (·.leaves f) = ownedBy pt f := by
    intro pt
    cases pt with
    | none => rfl
    | some pt => rw [Option.elim_some, Option.elim_some, ownedBy_some,
        PageTable.owns, PageTable.leaves]
  rw [Role.sum, ← Nat.add_assoc, ProcSpace.uses, Proc.times, Proc.times, Proc.times, howns]
  rfl

theorem Kernel.PipesOk.times (hok : kernel.PipesOk) (f : Frame) :
    (if kernel.IsPipe f then 1 else 0) = (kernel.pipe f).elim 0 fun _ => 1 := by
  have hiff := hok.isSome_iff f
  cases hpipe : kernel.pipe f with
  | none => exact if_neg fun hopen => by simpa [hpipe] using hiff.mpr hopen
  | some pipe => exact if_pos (hiff.mp (by simp [hpipe]))

theorem Kernel.sum_times (taken : List Frame) (hok : kernel.PipesOk) (f : Frame) :
    ∑ place, kernel.times taken f place =
      kernel.mem.free.count f + kernel.uses f + taken.count f := by
  have hproc : ∑ owner : Slot × Role, kernel.times taken f (.inr owner) =
      ∑ p, (kernel.proc p).space.uses f := by
    rw [Fintype.sum_prod_type]
    exact Finset.sum_congr rfl fun p _ => Proc.sum_times _ f
  rw [Fintype.sum_sum_type, Common.sum, hproc, Kernel.uses, ← hok.times]
  unfold Kernel.times
  dsimp only
  omega

/-- In every run in which no size gets past the trapframe, each page that the
kernel had at the start is one thing and nothing else. -/
theorem pages_have_one_place {taken : List Frame} {kernel first final : Kernel}
    (hcold : kernel.ColdSpaces taken) (hclosed : kernel.FilesClosed)
    (hstart : started kernel = some first) {events : List (Slot × Trap)}
    (hsizes : ∀ n state, run trapStep first (events.take n) = some state →
      ∀ p, (state.proc p).sz ≤ TRAPFRAME) (hrun : run trapStep first events = some final) :
    ∀ f ∈ taken ++ kernel.mem.free, ∃ place, final.times taken f place = 1 ∧
      ∀ other, other ≠ place → final.times taken f other = 0 := by
  intro f hf
  have hinv := hcold.run hstart ((hcold.sizes hstart events).mpr hsizes) hrun
  have hframes := hinv.frames f
  have hone : poolOf taken kernel False f = 1 := List.count_eq_one_of_mem hcold.frames hf
  apply TableSum.exists_sole
  rw [Kernel.sum_times taken (hinv.pipes hclosed)]
  unfold takenBy at hframes
  omega

/-- Grow, open two pipes, fork, and close the first pipe in both processes. -/
def pipeRun : List (Slot × Trap) :=
  [(initproc, .sbrk 4096 SBRK_EAGER), (initproc, .pipe 0), (initproc, .pipe 8),
    (initproc, .syscall .sysFork), (initproc, .syscall (.sysClose 0)),
    (initproc, .syscall (.sysClose 1)), (secondProc, .syscall (.sysClose 0)),
    (secondProc, .syscall (.sysClose 1)), (secondProc, .syscall (.sysExit 0)),
    (initproc, .wait 0)]

theorem pages_have_one_place_pipe : ∃ first final pi, started coldKernel = some first ∧
    run trapStep first pipeRun = some final ∧ final.times [] pi (.inl .pipe) = 1 ∧
    ∀ f ∈ smallFrames, ∃ place, final.times [] f place = 1 ∧
      ∀ other, other ≠ place → final.times [] f other = 0 := by
  have hseen : ∃ first ∈ started coldKernel, RunMeets trapStep GrowsBelow first pipeRun ∧
      ∃ final ∈ run trapStep first pipeRun,
        (List.finRange NFRAME).any fun pi => decide (final.IsPipe pi) := by
    decide +kernel
  obtain ⟨first, hstart, hmeets, final, hrun, hpipe⟩ := hseen
  obtain ⟨pi, _, hpipe⟩ := List.any_eq_true.mp hpipe
  have hsizes := (coldKernel_cold.sizes hstart pipeRun).mp hmeets
  refine ⟨first, final, pi, hstart, hrun, ?_, ?_⟩
  · rw [Kernel.times, if_pos (of_decide_eq_true hpipe)]
  · exact pages_have_one_place coldKernel_cold coldKernel_closed hstart hsizes hrun

end CkptKernel
