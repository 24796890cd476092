/-
The memory of a restored process compared with that of the process that was
checkpointed.
-/
import CkptKernel.RestoreRun
import CkptKernel.SpaceRuns

namespace CkptKernel

open ByteMem Code Machine

/-- Traps that leave files and directories alone, and system calls with the
condition on restore. -/
def TrapsPresent (live : Prop) (kernel : Kernel) (event : Slot × Trap) : Prop :=
  match event.2 with
  | .syscall call => RestoresPresent live kernel (event.1, call)
  | .sbrk _ _ => True
  | _ => False

instance (live : Prop) [Decidable live] (kernel : Kernel)
    (event : Slot × Trap) : Decidable (TrapsPresent live kernel event) := by
  obtain ⟨p, trap⟩ := event
  cases trap <;> unfold TrapsPresent <;> infer_instance

theorem trapStep_safe {live : Prop} {kernel next : Kernel}
    {event : Slot × Trap} (hsafe : kernel.Safe live 0) (hpresent : TrapsPresent live kernel event)
    (hstep : trapStep kernel event = some next) : next.Safe live 0 := by
  unfold trapStep at hstep
  split at hstep
  · obtain ⟨_, kernel', hrun, rfl⟩ := outcome_eq_some hstep
    obtain ⟨p, trap⟩ := event
    cases trap with
    | syscall call => exact wlp_call_safe hsafe hpresent _ _ hrun
    | sbrk n t =>
      have hsame := respects_bind (respects_inVm p (sysSbrk n t)) (fun _ => respects_pure ()) kernel
      exact hsafe.sameRefs (hsame _ _ hrun)
    | fault va => exact hpresent.elim
    | exec path uargv => exact hpresent.elim
    | wait addr => exact hpresent.elim
    | pipe fdarray => exact hpresent.elim
  · cases hstep

/-- A machine with more memory, when `main` calls `userinit`. -/
def wideKernel : Kernel :=
  { coldKernel with
    mem := ⟨(List.finRange 32).map (Fin.castLE (by decide)), fun _ _ => 7⟩ }

theorem wideKernel_spaces : wideKernel.ColdSpaces [] :=
  ⟨fun _ => rfl, fun _ => rfl, by decide⟩

theorem wideKernel_cold : wideKernel.Cold :=
  ⟨bootKernel_boot.ok, bootKernel_boot.root, fun _ => ⟨rfl, rfl⟩, fun _ => rfl⟩

/-- What holds of a state that such traps lead to. -/
theorem wideKernel_run {first final : Kernel} {events : List (Slot × Trap)}
    (hstart : started wideKernel = some first) (hgrows : RunMeets trapStep GrowsBelow first events)
    (hpresent : RunMeets trapStep (TrapsPresent False) first events)
    (hrun : run trapStep first events = some final) :
    final.Safe False 0 ∧ final.InOrder [] wideKernel := by
  refine ⟨?_, wideKernel_spaces.run hstart hgrows hrun⟩
  obtain ⟨_, first', hcode, rfl⟩ := outcome_eq_some hstart
  exact run_invariant (fun _ _ _ hsafe hmeets hstep =>
    trapStep_safe hsafe hmeets hstep)
    ((wlp_userinit wideKernel_cold _ _ hcode).safe False) hpresent hrun

/-- The first process grows by a page that it does not touch, and is
checkpointed and restored.  The new process has the page. -/
def secondLife : List (Slot × Trap) :=
  [(initproc, .sbrk 4096 SBRK_LAZY), (initproc, .syscall (.sysCheckpoint 0 [99, 107] (fun _ => 0))),
    (initproc, .syscall (.sysRestore [99, 107]))]

/-- The file that `kernel`'s process `p` wrote its checkpoint to is the one that
`cur` restores, and it has not changed. -/
structure CkptKept (kernel kernel₁ kernel₂ : Kernel) (p cur : Slot)
    (path : Name) (inum : Nat) : Prop where
  written : ckptFile kernel p path = some inum
  opened : restoredFile kernel₂ cur path = some inum
  same : kernel₁.fs.SameFile kernel₂.fs inum
  type : (kernel₁.fs.dinode inum).type ≠ 0
  linked : (kernel₁.fs.dinode inum).nlink ≠ 0

section RoundTrip

variable {total total' : Pool} {extra extra' : Frame → Int}
  {trace : RestoreTrace} {p cur : Slot} {path : Name} {stack : Bytes}
  {kernel kernel₁ kernel₂ kernel₃ : Kernel} {pt : PageTable} {inum pid : Nat}

/-- The image that `restore_proc` reads is the one that was written. -/
structure RestoreTrace.Rereads (trace : RestoreTrace) (kernel : Kernel)
    (p : Slot) (pt : PageTable) (stack : Bytes) (capture : Capture) : Prop where
  captured : captureFds kernel p = some capture
  starts : trace.held.fs.Starts (trace.opened.fs.inode trace.ip).inum
    (ckptImage kernel p pt stack capture)
  header : ∀ o, o < HDRSZ → trace.image o = putHeader (ckptHeader kernel p capture) stack o

theorem RestoreTrace.Of.rereads (hof : trace.Of cur path kernel₂ pid kernel₃)
    (hrunning : kernel.Running p pt)
    (hckpt : checkpointProc p path stack kernel = .ok (true, kernel₁))
    (hkept : CkptKept kernel kernel₁ kernel₂ p cur path inum) (hfs : kernel₂.FsOk) :
    ∃ capture, trace.Rereads kernel p pt stack capture := by
  have hsource := hof.source hfs
  have hinum : (trace.opened.fs.inode trace.ip).inum = inum := by
    have hopened := hkept.opened
    rw [restoredFile, hof.opens] at hopened
    exact Option.some.inj hopened
  obtain ⟨capture, hcapture, hstarts⟩ :=
    checkpointProc_image hrunning hckpt hkept.written hkept.type
  have hdinode := hkept.same.1
  have hsame := hsource.same (by rw [hinum, hdinode]; exact hkept.type)
    (by rw [hinum, hdinode]; exact hkept.linked)
  rw [hinum] at hsame
  have hheld := (hstarts.same hkept.same).same hsame
  have hlength : HDRSZ ≤ (ckptImage kernel p pt stack capture).length := by
    rw [ckptImage, List.length_append, bytesOf_length]
    exact Nat.le_add_right _ _
  refine ⟨capture, hcapture, by rwa [hinum], fun o ho => ?_⟩
  have hbyte := hheld.bytes o (Nat.lt_of_lt_of_le ho hlength)
  rw [hsource.header o ho, hsource.loaded.sync hsource.looks.ok,
    hsource.inum, hinum, hbyte, ckptImage,
    List.getD_append _ _ _ _ (by rwa [bytesOf_length]), bytesOf_getD _ ho]

theorem Kernel.Spaces.sz_lt (hspaces : kernel.Spaces total extra none)
    (hpt : (kernel.proc p).pagetable = some pt) : (kernel.proc p).sz < 256 ^ 8 := by
  obtain ⟨tf, _, hspace⟩ := (hspaces.sound p (by simp)).shaped pt hpt
  exact Nat.lt_of_le_of_lt (pagesOf_le_TOP.mp hspace.le) (by decide)

/-- Every page below page `n` that `pt` maps is mapped by `pt'` with the same
bits. -/
def SameProtections (n : Nat) (pt pt' : PageTable) : Prop :=
  ∀ k, k < n → ∀ pte, pt.page k = some pte → ∃ pte', pt'.page k = some pte' ∧ pte'.perm = pte.perm

/-- Every page below page `n` that `pt` maps can be read, written and executed
by the user. -/
def AllOpen (n : Nat) (pt : PageTable) : Prop :=
  ∀ k, k < n → ∀ pte ∈ pt.page k, pte.perm = restorePerm

instance (n : Nat) (pt : PageTable) : Decidable (AllOpen n pt) :=
  inferInstanceAs (Decidable (∀ k, k < n → ∀ pte ∈ pt.page k, _))

/-- `restore_proc` brings the protections back exactly if there were none. -/
theorem restore_protections_iff (hrunning : kernel.Running p pt)
    (hspaces : kernel.Spaces total extra none)
    (hckpt : checkpointProc p path stack kernel = .ok (true, kernel₁))
    (hkept : CkptKept kernel kernel₁ kernel₂ p cur path inum)
    (hfs : kernel₂.FsOk) (hspaces₂ : kernel₂.Spaces total' extra' none)
    (htotal : ∀ f, total' f ≤ 1) (hextra : ∀ f, 0 ≤ extra' f)
    (hrestore : restoreProc cur path kernel₂ = .ok (some pid, kernel₃)) :
    ∃ np pt', (kernel₂.proc np).state = .UNUSED ∧ (kernel₃.proc np).pid = pid ∧
      (kernel₃.proc np).sz = (kernel.proc p).sz ∧ (kernel₃.proc np).pagetable = some pt' ∧
      (SameProtections (pagesOf (kernel.proc p).sz) pt pt' ↔
        AllOpen (pagesOf (kernel.proc p).sz) pt) := by
  obtain ⟨trace, hof⟩ := restoreProc_eq_some hrestore
  obtain ⟨capture, hrereads⟩ := hof.rereads hrunning hckpt hkept hfs
  have hsz : trace.hdr.sz = (kernel.proc p).sz :=
    getHeader_sz (hspaces.sz_lt hrunning.pagetable) stack hrereads.header
  obtain ⟨tf, hmapped⟩ := hof.mapped hfs hspaces₂ ⟨htotal, hextra⟩
  have hspace := hmapped.space
  have hpages := hmapped.pages
  rw [hsz] at hspace hpages
  refine ⟨trace.np, trace.pt, hmapped.unused, hmapped.pid,
    congrArg ProcSpace.sz hspace, congrArg ProcSpace.pagetable hspace, ?_⟩
  constructor
  · intro hsame k hk pte hpage
    obtain ⟨pte', hpage', hperm⟩ := hsame k hk pte hpage
    obtain ⟨frame, hframe⟩ := hpages k hk
    rw [hframe] at hpage'
    cases hpage'
    exact hperm.symm
  · intro hopen k hk pte hpage
    obtain ⟨frame, hframe⟩ := hpages k hk
    exact ⟨_, hframe, (hopen k hk pte hpage).symm⟩

/-- Process `p` can be checkpointed to `path` and restored at once. -/
def Kernel.RoundTrips (kernel : Kernel) (p : Slot) (path : Name) : Prop :=
  ∃ inum ∈ ckptFile kernel p path, wp (checkpointProc p path (fun _ => 0)) kernel (fun ok kernel₁ =>
    ok = true ∧ restoredFile kernel₁ p path = some inum ∧ (kernel₁.fs.dinode inum).type ≠ 0 ∧
    (kernel₁.fs.dinode inum).nlink ≠ 0 ∧ wp (restoreProc p path) kernel₁ (fun pid _ => pid.isSome))

instance (kernel : Kernel) (p : Slot) (path : Name) : Decidable (kernel.RoundTrips p path) :=
  inferInstanceAs (Decidable (∃ _ ∈ _, _))

theorem Kernel.RoundTrips.kept (htrips : kernel.RoundTrips p path) (hsafe : kernel.Safe False 0)
    (hspaces : kernel.Spaces total extra none) : ∃ inum kernel₁ pid kernel₃,
      checkpointProc p path (fun _ => 0) kernel = .ok (true, kernel₁) ∧
      CkptKept kernel kernel₁ kernel₁ p p path inum ∧ kernel₁.FsOk ∧
      kernel₁.Spaces total extra none ∧
      restoreProc p path kernel₁ = .ok (some pid, kernel₃) := by
  obtain ⟨inum, hfile, _, kernel₁, hckpt, rfl, hopened, htype, hlink, _, kernel₃, hrestore,
    hpid⟩ := htrips
  obtain ⟨pid, rfl⟩ := Option.isSome_iff_exists.mp hpid
  have hspaces₁ := wlp_of_ends (keeps_checkpointProc p path _ kernel hspaces) _ _ hckpt
  exact ⟨inum, kernel₁, pid, kernel₃, hckpt, ⟨hfile, hopened, .refl kernel₁.fs inum, htype, hlink⟩,
    (safe_checkpointProc p path _ _ hsafe _ _ hckpt).fsOk, hspaces₁, hrestore⟩

/-- A process that has been restored once before. -/
theorem restore_protections_open : ∃ first kernel kernel₁ kernel₃ pid np pt pt',
    started wideKernel = some first ∧ run trapStep first secondLife = some kernel ∧
    checkpointProc secondProc [slash, 100] (fun _ => 0) kernel = .ok (true, kernel₁) ∧
    restoreProc secondProc [slash, 100] kernel₁ = .ok (some pid, kernel₃) ∧
    (kernel.proc secondProc).pagetable = some pt ∧ pt.page 0 ≠ none ∧
    (kernel₃.proc np).pid = pid ∧ (kernel₃.proc np).pagetable = some pt' ∧
    SameProtections (pagesOf (kernel.proc secondProc).sz) pt pt' := by
  have hseen : ∃ first ∈ started wideKernel, RunMeets trapStep GrowsBelow first secondLife ∧
      RunMeets trapStep (TrapsPresent False) first secondLife ∧
      ∃ kernel ∈ run trapStep first secondLife, (∀ i, (kernel.proc secondProc).ofile i = none) ∧
        kernel.RoundTrips secondProc [slash, 100] ∧
        ∃ pt ∈ (kernel.proc secondProc).pagetable, pt.page 0 ≠ none ∧
          AllOpen (pagesOf (kernel.proc secondProc).sz) pt := by
    decide +kernel
  obtain ⟨first, hstart, hgrows, hpresent, kernel, hrun, hclosed, htrips, pt, hpt, hthere,
    hopen⟩ := hseen
  obtain ⟨hsafe, hspaces⟩ := wideKernel_run hstart hgrows hpresent hrun
  obtain ⟨inum, kernel₁, pid, kernel₃, hckpt, hkept, hfs₁, hspaces₁, hrestore⟩ :=
    htrips.kept hsafe hspaces
  have hrunning : kernel.Running secondProc pt :=
    ⟨hsafe.fsOk, fun i f hof => absurd hof (by rw [hclosed i]; simp), hpt⟩
  obtain ⟨np, pt', _, hpid, _, hpt', hiff⟩ := restore_protections_iff hrunning hspaces hckpt hkept
    hfs₁ hspaces₁ (poolOf_le wideKernel_spaces.frames) (takenBy_nonneg []) hrestore
  exact ⟨first, kernel, kernel₁, kernel₃, pid, np, pt, pt', hstart, hrun, hckpt,
    hrestore, hpt, hthere, hpid, hpt', hiff.mpr hopen⟩

/-- The first process is checkpointed and restored at once as the second one,
and then `post` is true. -/
def Kernel.RestoresTo (kernel : Kernel) (post : Kernel → Prop) : Prop :=
  wp (checkpointProc initproc [99, 107] (fun _ => 0)) kernel (fun ok kernel₁ => ok = true ∧
    wp (restoreProc initproc [99, 107]) kernel₁ (fun pid kernel₃ =>
      pid = some (kernel₃.proc secondProc).pid ∧ post kernel₃))

instance (kernel : Kernel) (post : Kernel → Prop) [DecidablePred post] :
    Decidable (kernel.RestoresTo post) := inferInstanceAs (Decidable (wp _ _ _))

/-- A page of the heap can be written but not executed; in the restored process
it can be executed. -/
theorem restore_makes_executable : ∃ first grown kernel₁ kernel₃ pid pt pt' pte pte',
      started wideKernel = some first ∧
      trapStep first (initproc, .sbrk 4096 SBRK_EAGER) = some grown ∧
      checkpointProc initproc [99, 107] (fun _ => 0) grown = .ok (true, kernel₁) ∧
      restoreProc initproc [99, 107] kernel₁ = .ok (some pid, kernel₃) ∧
      (kernel₃.proc secondProc).pid = pid ∧ (grown.proc initproc).pagetable = some pt ∧
      (kernel₃.proc secondProc).pagetable = some pt' ∧ 0 < (grown.proc initproc).sz ∧
      pt.page 0 = some pte ∧ pt'.page 0 = some pte' ∧ pte.perm.x = false ∧ pte'.perm.x = true := by
  have hseen : ∃ first ∈ started wideKernel,
      ∃ grown ∈ trapStep first (initproc, .sbrk 4096 SBRK_EAGER), 0 < (grown.proc initproc).sz ∧
      (∃ pt ∈ (grown.proc initproc).pagetable, ∃ pte ∈ pt.page 0, pte.perm.x = false) ∧
      grown.RestoresTo fun kernel₃ => ∃ pt ∈ (kernel₃.proc secondProc).pagetable,
        ∃ pte ∈ pt.page 0, pte.perm.x = true := by
    decide +kernel
  obtain ⟨first, hstart, grown, hgrown, hsz, ⟨pt, hpt, pte, hpage, hperm⟩, _, kernel₁, hckpt, rfl,
    _, kernel₃, hrestore, rfl, pt', hpt', pte', hpage', hperm'⟩ := hseen
  exact ⟨first, grown, kernel₁, kernel₃, _, pt, pt', pte, pte', hstart, hgrown, hckpt, hrestore,
    rfl, hpt, hpt', hsz, hpage, hpage', hperm, hperm'⟩

end RoundTrip

end CkptKernel
