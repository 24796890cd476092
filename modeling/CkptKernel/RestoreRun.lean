/-
A `restore_proc` that succeeds, step by step: the file it opens, the header it
reads, the process it allocates, the pages it maps and fills and the
descriptors it rebuilds.
-/
import CkptKernel.CheckpointFile
import CkptKernel.SpaceCalls

namespace CkptKernel

open ByteMem Code

section Ends

variable {kernel : Kernel} {np : Slot} {ip : InodeRef} {pid : Nat}
  {post : Nat → Kernel → Prop}

/-- A post-condition for the calls that return a pid. -/
def OnPid (post : Nat → Kernel → Prop) (result : Option Nat)
    (kernel' : Kernel) : Prop :=
  ∀ pid, result = some pid → post pid kernel'

theorem wlp_restoreEnd_none (ip : InodeRef) : wlp (restoreEnd ip none) kernel (OnPid post) := by
  unfold restoreEnd
  simp only [wlp_bind, wlp_inFs, wlp_pure]
  exact fun _ _ _ _ _ _ _ hsome => by cases hsome

theorem wlp_restoreBad_none (np : Slot) (ip : InodeRef) :
    wlp (restoreBad np ip) kernel (OnPid post) := by
  unfold restoreBad
  simp only [wlp_bind]
  exact fun _ _ _ _ _ _ _ _ _ _ _ _ _ _ _ _ _ _ =>
    wlp_restoreEnd_none ip

end Ends

/-- The stages of a `restore_proc` that returns a pid. -/
structure RestoreTrace where
  /-- The checkpoint file. -/
  ip : InodeRef
  /-- The bytes read as a header. -/
  image : Bytes
  np : Slot
  /-- The page table of the new process, empty and with its pages. -/
  empty : PageTable
  pt : PageTable
  /-- The kernel when the file is open, when the header has been read, with the
  new process, with its pages, with their contents and with its files. -/
  opened : Kernel
  held : Kernel
  made : Kernel
  grown : Kernel
  filled : Kernel
  rebuilt : Kernel

def RestoreTrace.hdr (trace : RestoreTrace) : CkptHeader :=
  getHeader trace.image

/-- `namei` of the checkpoint file, inside the transaction. -/
def restoreOpen (cur : Slot) (path : Name) : Code Kernel (Option InodeRef) := do
  inFs beginOp
  let kernel ← read
  inFs (namei (kernel.proc cur).cwd path)

def restoreRead (ip : InodeRef) : Code Kernel (Option Nat × Bytes) := do
  inFs (ilock ip)
  inFs (readi ip (.kernel (fun _ => 0)) 0 HDRSZ)

/-- The new page table and the size are in place; `np->lock` is released. -/
def restoreSized (np : Slot) (pt : PageTable) (sz : Nat) : Code Kernel Unit := do
  setProc np (fun proc => { proc with pagetable := some pt })
  setProc np (fun proc => { proc with sz := sz })
  release (.proc np)

/-- What the code did at each stage. -/
structure RestoreTrace.Of (trace : RestoreTrace) (cur : Slot) (path : Name)
    (kernel : Kernel) (pid : Nat) (kernel' : Kernel) : Prop where
  opens : restoreOpen cur path kernel = .ok (some trace.ip, trace.opened)
  reads : restoreRead trace.ip trace.opened = .ok ((some HDRSZ, trace.image), trace.held)
  valid : trace.hdr.Valid
  makes : allocproc trace.held = .ok (some trace.np, trace.made)
  empty : (trace.made.proc trace.np).pagetable = some trace.empty
  grows : ∃ sz kernel₁, sz ≠ 0 ∧
    inMem (uvmalloc trace.empty 0 trace.hdr.sz restorePerm) trace.made =
      .ok ((trace.pt, sz), kernel₁) ∧
    restoreSized trace.np trace.pt trace.hdr.sz kernel₁ = .ok ((), trace.grown)
  fills : restoreAddrSpace trace.pt trace.ip (pagesOf trace.hdr.sz) 0 HDRSZ
    trace.grown = .ok (true, trace.filled)
  rebuilds : restoreFiles trace.np trace.hdr trace.filled = .ok (true, trace.rebuilt)
  finishes : restoreFinish trace.np trace.hdr trace.ip trace.rebuilt = .ok (some pid, kernel')

/-- A run that returns a pid went through all stages. -/
theorem restoreProc_eq_some {cur : Slot} {path : Name} {kernel kernel' : Kernel} {pid : Nat}
    (hrun : restoreProc cur path kernel = .ok (some pid, kernel')) :
    ∃ trace : RestoreTrace, trace.Of cur path kernel pid kernel' := by
  revert hrun
  suffices hall : wlp (restoreProc cur path) kernel (OnPid fun pid kernel' =>
      ∃ trace : RestoreTrace, trace.Of cur path kernel pid kernel') from
    fun hrun => hall _ _ hrun pid rfl
  unfold restoreProc
  rw [wlp_bind]
  intro _ kernel₀ hbegin
  rw [wlp_bind, wlp_read, wlp_bind]
  intro found opened hnamei
  cases found with
  | none =>
    simp only [wlp_bind, wlp_inFs, wlp_pure]
    exact fun _ _ _ _ hsome => by cases hsome
  | some ip =>
    have hopens : restoreOpen cur path kernel = .ok (some ip, opened) := by
      rw [restoreOpen, bind_of_ok hbegin, read_bind]
      exact hnamei
    dsimp only
    unfold restoreFile
    rw [wlp_bind]
    intro _ locked hlock
    rw [wlp_bind]
    rintro ⟨count, image⟩ held hread
    have hreads : restoreRead ip opened = .ok ((count, image), held) := by
      rw [restoreRead, bind_of_ok hlock]
      exact hread
    rw [wlp_ite]
    split
    · exact wlp_restoreEnd_none ip
    rename_i hvalid
    rw [not_or, not_not, not_not] at hvalid
    rw [wlp_bind]
    intro result made hmakes
    cases result with
    | none => exact wlp_restoreEnd_none ip
    | some np =>
      dsimp only
      unfold restoreInto
      rw [wlp_bind, wlp_read]
      cases hempty : (made.proc np).pagetable with
      | none => exact wlp_panic.mpr trivial
      | some empty =>
        dsimp only
        rw [wlp_bind]
        rintro ⟨pt, sz⟩ kernel₁ hgrows
        rw [wlp_bind]
        intro _ kernel₂ hset
        rw [wlp_ite]
        split
        · exact wlp_restoreBad_none np ip
        rename_i hsz
        rw [wlp_bind]
        intro _ kernel₃ hset'
        rw [wlp_bind]
        intro _ grown hrelease
        have hsized : restoreSized np pt (getHeader image).sz kernel₁ = .ok ((), grown) := by
          rw [restoreSized, bind_of_ok hset, bind_of_ok hset']
          exact hrelease
        rw [wlp_bind]
        intro loaded filled hfills
        cases loaded with
        | false =>
          simp only [Bool.false_eq_true, if_false, wlp_bind, wlp_pure]
          exact wlp_restoreBad_none np ip
        | true =>
          simp only [if_true]
          rw [wlp_bind]
          intro ok rebuilt hrebuilds
          cases ok with
          | false =>
            simp only [Bool.false_eq_true, if_false]
            exact wlp_restoreBad_none np ip
          | true =>
            simp only [if_true]
            rintro result kernel' hfinishes pid rfl
            obtain ⟨rfl, hvalid⟩ := hvalid
            exact ⟨⟨ip, image, np, empty, pt, opened, held, made,
              grown, filled, rebuilt⟩, hopens, hreads, hvalid,
              hmakes, hempty, ⟨sz, kernel₁, hsz, hgrows, hsized⟩, hfills, hrebuilds, hfinishes⟩

/-- The number of the file that `restore_proc` opens. -/
def restoredFile (kernel : Kernel) (cur : Slot) (path : Name) : Option Nat :=
  match restoreOpen cur path kernel with
  | .ok (some ip, opened) => some (opened.fs.inode ip).inum
  | _ => none

section Source

variable {trace : RestoreTrace} {cur : Slot} {path : Name}
  {kernel kernel' : Kernel} {pid : Nat}

/-- The checkpoint file is open and locked, and its header has been read. -/
structure RestoreTrace.Source (trace : RestoreTrace) (kernel : Kernel) : Prop where
  only : kernel.OnlyFs trace.held
  looks : Fs.Looks kernel.holds (one trace.ip) kernel.begun.fs trace.held.fs
  loaded : trace.held.fs.Loaded trace.ip
  inum : (trace.held.fs.inode trace.ip).inum = (trace.opened.fs.inode trace.ip).inum
  size : HDRSZ ≤ (trace.held.fs.inode trace.ip).copy.size.toNat
  header : ∀ o, o < HDRSZ → trace.image o =
    (trace.held.fs.inode trace.ip).copy.byte trace.held.fs.disk o

theorem RestoreTrace.Of.source (hof : trace.Of cur path kernel pid kernel')
    (hfs : kernel.FsOk) : trace.Source kernel := by
  have hbegun := hfs.withLog kernel.fs.log.reserve
  have hopen : wlp (restoreOpen cur path) kernel (fun found opened =>
      kernel.OnlyFs opened ∧ ∀ ip, found = some ip →
        Fs.Named kernel.holds ip kernel.begun.fs opened.fs) := by
    unfold restoreOpen
    rw [wlp_bind, wlp_inFs]
    refine wlp_beginOp ?_
    rw [wlp_bind, wlp_read, wlp_inFs]
    refine wlp_mono (wlp_of_ends (ends_namei hbegun.ok kernel.holds_nonneg hbegun.held
      (fun ip hcwd => ?_) path)) ?_
    · exact ⟨kernel.holds_cwd hcwd, hfs.inum ip (kernel.holds_cwd hcwd)⟩
    · rintro found fs₁ (⟨rfl, _⟩ | ⟨ip, rfl, hnamed⟩)
      · exact ⟨rfl, fun _ h => by cases h⟩
      · exact ⟨rfl, fun _ h => by cases h; exact hnamed⟩
  obtain ⟨honly, hfound⟩ := hopen _ _ hof.opens
  have hnamed := hfound _ rfl
  have hread : wlp (restoreRead trace.ip) trace.opened (fun result held =>
      held = trace.opened.withFs (trace.opened.fs.lockInode trace.ip) ∧
      held.fs.Ok ∧ held.fs.Loaded trace.ip ∧
      result.1 = some ((held.fs.inode trace.ip).copy.readable 0 HDRSZ) ∧
      result.2 = blit (fun _ => 0) 0 ((held.fs.inode trace.ip).copy.readable 0 HDRSZ) (fun i =>
          (held.fs.inode trace.ip).copy.byte held.fs.disk (0 + i))) := by
    unfold restoreRead
    rw [wlp_bind, wlp_inFs]
    refine wlp_mono (wlp_ilock hnamed.looks.ok trace.ip) ?_
    rintro _ fs₂ ⟨rfl, hpos, _, htype⟩
    have hok := hnamed.looks.ok.lockInode hpos (by rw [hnamed.looks.sb]; exact hnamed.inum) htype
    have hself : (trace.opened.fs.lockInode trace.ip).inode trace.ip =
        { trace.opened.fs.inode trace.ip with
          locked := true, valid := true, copy := trace.opened.fs.dinode
            (trace.opened.fs.inode trace.ip).inum } := withInode_self _ _ _
    have hloaded : (trace.opened.fs.lockInode trace.ip).Loaded trace.ip :=
      ⟨by rw [hself]; exact hpos, by rw [hself]⟩
    rw [wlp_inFs]
    rintro result fs₃ hrun
    rw [withFs_fs, readi_kernel (hok.full hloaded)] at hrun
    cases hrun
    exact ⟨rfl, hok, hloaded, rfl, rfl⟩
  obtain ⟨hheld, hok, hloaded, hcount, himage⟩ := hread _ _ hof.reads
  have hlooks : Fs.Looks kernel.holds (one trace.ip) kernel.begun.fs trace.held.fs := by
    rw [hheld] at hok ⊢
    exact hnamed.looks.trans_zero (looks_lockInode hok _)
  have hcount' := Option.some.inj hcount
  have hsize : HDRSZ ≤ (trace.held.fs.inode trace.ip).copy.size.toNat := by
    unfold Dinode.readable at hcount'
    split at hcount'
    · exact absurd hcount' (by decide)
    · omega
  refine ⟨?_, hlooks, hloaded, ?_, hsize, ?_⟩
  · rw [Kernel.OnlyFs, hheld]
    rw [Kernel.OnlyFs] at honly
    rw [honly]
    rfl
  · rw [hheld, withFs_fs, Fs.lockInode, withInode_self]
  · intro o ho
    dsimp only at himage
    rw [himage, ← hcount', blit_inside _ _ (Nat.zero_le o) (by omega)]
    congr 1
    omega

/-- What the file held when `restore_proc` was called is what is read. -/
theorem RestoreTrace.Source.same (hsource : trace.Source kernel)
    (htype : (kernel.fs.dinode (trace.opened.fs.inode trace.ip).inum).type ≠ 0)
    (hlink : (kernel.fs.dinode (trace.opened.fs.inode trace.ip).inum).nlink ≠ 0) :
    kernel.fs.SameFile trace.held.fs (trace.opened.fs.inode trace.ip).inum := by
  refine hsource.looks.kept _ ?_ htype (Or.inl hlink)
  rw [← hsource.looks.sb, ← hsource.inum]
  exact hsource.loaded.inum hsource.looks.ok

end Source

section Space

variable {total : Pool} {extra : Frame → Int} {trace : RestoreTrace}
  {cur np : Slot} {path : Name} {kernel kernel₁ kernel' : Kernel} {pid : Nat}
  {space : ProcSpace}

/-- The memory of the process that `restore_proc` has made: all of it is mapped,
and for everything. -/
structure RestoreTrace.Mapped (trace : RestoreTrace) (kernel : Kernel)
    (pid : Nat) (kernel' : Kernel) (tf : Frame) : Prop where
  unused : (kernel.proc trace.np).state = .UNUSED
  pid : (kernel'.proc trace.np).pid = pid
  space : (kernel'.proc trace.np).space = ⟨.RUNNABLE, trace.hdr.sz, some trace.pt, some tf⟩
  shape : trace.pt.Space (pagesOf trace.hdr.sz) tf
  pages : ∀ j, j < pagesOf trace.hdr.sz → ∃ frame,
    trace.pt.page j = some ⟨.frame frame, restorePerm⟩

/-- The process with its pages, when its files are about to be rebuilt. -/
structure RestoreTrace.Loaded (total : Pool) (extra : Frame → Int)
    (trace : RestoreTrace) (kernel : Kernel) (state : ProcState) (tf : Frame) : Prop where
  unused : (kernel.proc trace.np).state = .UNUSED
  working : trace.held.Working total extra trace.np
    ⟨state, trace.hdr.sz, some trace.pt, some tf⟩ trace.filled
  shape : trace.pt.Space (pagesOf trace.hdr.sz) tf
  pages : ∀ j, j < pagesOf trace.hdr.sz → ∃ frame,
    trace.pt.page j = some ⟨.frame frame, restorePerm⟩

variable (hof : trace.Of cur path kernel pid kernel') (hfs : kernel.FsOk)
  (hspaces : kernel.Spaces total extra none)
include hof hfs hspaces

theorem RestoreTrace.Of.loaded : ∃ state tf, trace.Loaded total extra kernel state tf := by
  have honly := (hof.source hfs).only
  rw [Kernel.OnlyFs] at honly
  have hspaces₁ : trace.held.Spaces total extra none := by
    rw [honly]
    exact SpaceInv.same hspaces (.same rfl rfl rfl fun _ => ⟨rfl, rfl⟩)
  obtain ⟨hunused, space, hnew, hwork⟩ :=
    wlp_of_ends (ends_allocproc hspaces₁) _ _ hof.makes
  obtain ⟨tf, pt, htf, hpt, hspace⟩ := hnew.space
  have hempty : pt = trace.empty := by
    have hself := congrArg ProcSpace.pagetable hwork.self
    rw [hpt] at hself
    exact Option.some.inj (hself.symm.trans hof.empty)
  subst hempty
  obtain ⟨sz, kernel₁, hsz, hgrows, hsized⟩ := hof.grows
  have hzero : pagesOf 0 = 0 := by decide
  have hspace₀ : trace.empty.Space (pagesOf 0) tf := hzero ▸ hspace
  obtain ⟨hgrown, hstep⟩ := wlp_of_ends (hwork.memory
    (ends_uvmalloc hspace₀ trace.hdr.sz restorePerm)) _ _ hgrows
  have hwork₁ := hstep _ (hgrown.count.moves extra)
  obtain ⟨hfailed, _⟩ | ⟨_, hlarger, hpages⟩ := hgrown.ends
  · exact absurd hfailed hsz
  rw [Nat.zero_max] at hlarger
  have hle := hlarger.le
  have hTOP := TOP_lt
  have hsizes : ends (restoreSized trace.np trace.pt trace.hdr.sz) kernel₁
      (fun _ => trace.held.Working total extra trace.np ⟨space.state,
        trace.hdr.sz, some trace.pt, space.trapframe⟩) Sane := by
    unfold restoreSized
    refine ends_seq (hwork₁.set extra (fun space => { space with
      pagetable := some trace.pt }) (fun _ => ⟨rfl, rfl⟩) fun f => ?_)
      fun _ kernel₂ hwork₂ => ?_
    · simp only [ProcSpace.uses, hpt, ownedBy_some]
      push_cast
      ring
    refine ends_seq (hwork₂.set extra (fun space => { space with
      sz := trace.hdr.sz }) (fun _ => ⟨rfl, rfl⟩) fun f => ?_)
      fun _ kernel₃ hwork₃ => ?_
    · simp only [ProcSpace.uses]
    exact keeps_release _ _ hwork₃
  have hwork₂ := wlp_of_ends hsizes _ _ hsized
  have hwork₃ := wlp_of_ends (keeps_restoreAddrSpace trace.pt trace.ip _ 0 _
    (by omega) _ hwork₂) _ _ hof.fills
  refine ⟨space.state, tf, ?_, by rwa [htf] at hwork₃, hlarger, ?_⟩
  · rw [← hunused, honly]
    rfl
  · intro j hj
    obtain ⟨frame, _, hpage⟩ := hpages j (by rw [hzero]; exact Nat.zero_le j) hj
    exact ⟨frame, hpage⟩

theorem RestoreTrace.Of.mapped (hsole : total.Sole extra) :
    ∃ tf, trace.Mapped kernel pid kernel' tf := by
  -- The counts of files are not needed here, so the header may be any.
  obtain ⟨state, tf, hloaded⟩ := hof.loaded hfs hspaces.uncounted
  have hwork := wlp_of_ends (keeps_restoreFiles (fun _ hwork _ =>
    hwork.spaces.pipe_of_free ⟨hsole.le_one, hsole.nonneg⟩) trace.np False.elim _
    hloaded.working) _ _ hof.rebuilds
  obtain ⟨hwork', hpid⟩ := wlp_of_ends
    (ends_restoreFinish trace.hdr trace.ip _ hwork) _ _ hof.finishes
  exact ⟨tf, hloaded.unused, (Option.some.inj hpid).symm, hwork'.self, hloaded.shape, hloaded.pages⟩

end Space

section Image

variable {fs : Fs} {ip : InodeRef} {kernel kernel' kernel₁ : Kernel} {p : Slot}
  {pt : PageTable} {path : Name} {stack : Bytes} {inum : Nat}

/-- `image` is at the start of file `inum`. -/
structure Fs.Starts (fs : Fs) (inum : Nat) (image : List UInt8) : Prop where
  size : image.length ≤ (fs.dinode inum).size.toNat
  bytes : ∀ o, o < image.length → (fs.dinode inum).byte fs.disk o = image.getD o 0

theorem Fs.Starts.same {fs' : Fs} {image : List UInt8}
    (hstarts : fs.Starts inum image) (hsame : fs.SameFile fs' inum) : fs'.Starts inum image := by
  refine ⟨by rw [hsame.1]; exact hstarts.size, fun o ho => ?_⟩
  rw [hsame.1, hsame.2 o (Nat.lt_of_lt_of_le ho hstarts.size)]
  exact hstarts.bytes o ho

/-- After a checkpoint that succeeded the file holds the image. -/
theorem checkpointProc_image (hrunning : kernel.Running p pt)
    (hrun : checkpointProc p path stack kernel = .ok (true, kernel'))
    (hfile : ckptFile kernel p path = some inum) (htype : (kernel'.fs.dinode inum).type ≠ 0) :
    ∃ capture, captureFds kernel p = some capture ∧
      kernel'.fs.Starts inum (ckptImage kernel p pt stack capture) := by
  obtain ⟨_, fs', log, hfs', hend⟩ :=
    wlp_checkpointProc hrunning path stack true kernel' hrun
  cases hend with
  | opened hrun' hcreate hpart hover _ hsame =>
  rw [ckptFile, show create (kernel.proc p).cwd path T_FILE 0 0
    kernel.begun.fs = _ from hrun'] at hfile
  cases hfile
  obtain ⟨hev, hloaded, _⟩ := hcreate.opened
  have hreplaced := hover.replaced hev.ok hloaded
  rw [begun_part, CkptPart] at hpart
  cases hcap : captureFds kernel p with
  | none =>
    rw [hcap] at hpart
    cases hpart.1
  | some capture =>
    rw [hcap] at hpart
    rw [hfs'] at htype ⊢
    refine ⟨capture, rfl, ?_⟩
    rw [← hpart.2.mp rfl]
    have hstarts := Fs.Starts.same ⟨by rw [hreplaced.size]; omega, hreplaced.written⟩ (hsame htype)
    exact ⟨hstarts.size, hstarts.bytes⟩

end Image

end CkptKernel
