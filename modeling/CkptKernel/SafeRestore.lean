/-
Checkpoint keeps the types of the inodes behind open files and current
directories.  Restore takes inode numbers from a file without looking at the
disk; it keeps them if the numbers are those of inodes that are there.
-/
import CkptKernel.SafeCalls

namespace CkptKernel

open ByteMem Code

section SafeRestore

variable {live : Prop} {extra : InodeRef → Int} {kernel : Kernel}
  {ip : InodeRef}

/-- Whatever is written of the image goes to the one file. -/
theorem wlp_checkpointWrite_part (hok : kernel.fs.Ok) (hloaded : kernel.fs.Loaded ip)
    (hfile : (kernel.fs.inode ip).copy.type ≠ T_DIR) (p : Slot) (hdr : CkptHeader) (stack : Bytes) :
    wlp (checkpointWrite p ip hdr stack) kernel (fun _ kernel' =>
      kernel.OnlyFs kernel' ∧ ∃ part, Fs.Overwritten ip part kernel.fs kernel'.fs) := by
  cases hpt : (kernel.proc p).pagetable with
  | some pt =>
    refine wlp_mono (wlp_checkpointWrite hpt hok hloaded hfile hdr stack) ?_
    rintro _ kernel' ⟨honly, part, _, _, hover⟩
    exact ⟨honly, part, hover⟩
  | none =>
    unfold checkpointWrite
    rw [wlp_bind, wlp_inFs]
    refine wlp_mono ((Fs.Overwritten.refl hok hloaded).write hfile
      (putHeader hdr stack) (show 0 < HDRSZ by decide) (by decide)) ?_
    rintro result fs₁ ⟨t, _, _, hover⟩
    rw [wlp_ite]
    split
    · exact (wlp_pure false).mpr ⟨rfl, _, hover⟩
    · rw [wlp_bind, wlp_read, withFs_proc, hpt]
      exact wlp_panic.mpr trivial

theorem safe_checkpointBody (p : Slot) (path : Name) (stack : Bytes) :
    SafeCode live 0 0 (checkpointBody p path stack) := by
  intro kernel hsafe
  unfold checkpointBody
  rw [wlp_bind, wlp_read, wlp_bind, wlp_inFs]
  refine wlp_mono (wlp_of_ends (ends_create hsafe.ok kernel.holds_nonneg hsafe.heldHolds
    (hsafe.fsOk.cwdOk p) path T_FILE 0 0)) ?_
  intro found fs₁ hcreate
  cases found with
  | none =>
    cases hcreate with
    | none hev _ =>
      exact (wlp_pure false).mpr (hsafe.evolves_same hev)
  | some ip =>
    obtain ⟨hev, hloaded, hfile⟩ := hcreate.opened
    have hsafe₁ := hsafe.evolves_zero hev
    -- the end of the call, after some part of the image has been written
    have hclose : ∀ {part fs₂} (ok : Bool), Fs.Overwritten ip part fs₁ fs₂ →
        wlp (inFs (iunlockput ip) >>= fun _ => pure ok) (kernel.withFs fs₂)
          (fun _ kernel' => kernel'.Safe live 0) := by
      intro part fs₂ ok hover
      exact triple_bind (safe_iunlockput ip) (fun _ => triple_pure ok) _
        (hsafe₁.evolves_same (hover.evolves kernel.holds))
    dsimp only
    rw [wlp_bind, wlp_read]
    cases captureFds (kernel.withFs fs₁) p with
    | none => exact hclose false (.refl hev.ok hloaded)
    | some capture =>
      dsimp only
      refine wlp_seq (@wlp_checkpointWrite_part (kernel.withFs fs₁) ip
        hev.ok hloaded hfile p _ stack) ?_
      rintro ok kernel₂ ⟨honly, part, hover⟩
      rw [honly]
      exact hclose ok hover

theorem safe_checkpointProc (p : Slot) (path : Name) (stack : Bytes) :
    SafeCode live 0 0 (checkpointProc p path stack) :=
  triple_bind safe_beginOp fun _ =>
    triple_bind (safe_checkpointBody p path stack) fun ok => safe_end ok

/-- A saved descriptor that names an inode. -/
def CkptFd.OnInode (fd : CkptFd) : Prop :=
  fd.type = FD_INODE ∨ fd.type = FD_DEVICE

instance (fd : CkptFd) : Decidable fd.OnInode :=
  inferInstanceAs (Decidable (_ ∨ _))

/-- A saved descriptor through which an inode can be written. -/
def CkptFd.Writes (fd : CkptFd) : Prop :=
  fd.type = FD_INODE ∧ fd.writable ≠ 0

instance (fd : CkptFd) : Decidable fd.Writes :=
  inferInstanceAs (Decidable (_ ∧ _))

/-- The number of the current directory that restore takes. -/
def CkptHeader.cwd (hdr : CkptHeader) : Nat :=
  if hdr.cwdInum ≠ 0 then hdr.cwdInum else ROOTINO

/-- What the disk must say of the inodes that a header names. -/
structure CkptHeader.Names (live : Prop) (hdr : CkptHeader) (fs : Fs) : Prop where
  inum : ∀ i, (hdr.fds i).OnInode → (hdr.fds i).inum < fs.sb.ninodes
  alloc : live → ∀ i, (hdr.fds i).OnInode → (fs.dinode (hdr.fds i).inum).type ≠ 0
  writes : ∀ i, (hdr.fds i).Writes → (fs.dinode (hdr.fds i).inum).type ≠ 0 ∧
      (fs.dinode (hdr.fds i).inum).type ≠ T_DIR
  cwd : hdr.cwd < fs.sb.ninodes
  dir : live → (fs.dinode hdr.cwd).type = T_DIR

variable {hdr : CkptHeader}

theorem CkptHeader.Names.of_disk {fs fs' : Fs} (hnames : hdr.Names live fs) (hsb : fs'.sb = fs.sb)
    (hdinode : fs'.dinode = fs.dinode) : hdr.Names live fs' := by
  obtain ⟨hinum, hlive, hwrites, hcwd, hdir⟩ := hnames
  refine ⟨?_, ?_, ?_, ?_, ?_⟩
  · rwa [hsb]
  · rwa [hdinode]
  · rwa [hdinode]
  · rwa [hsb]
  · rwa [hdinode]

/-- Take a reference to an inode by its number. -/
theorem wlp_igetByInum_safe (hsafe : kernel.Safe live extra) (hnn : ∀ e, 0 ≤ extra e) (inum : Nat) :
    wlp (inFs (igetByInum inum)) kernel (fun ip kernel' =>
      kernel'.Safe live (extra + one ip) ∧ kernel.OnlyFs kernel' ∧
        (kernel'.fs.inode ip).inum = inum ∧ kernel'.fs.sb = kernel.fs.sb ∧
        kernel'.fs.dinode = kernel.fs.dinode) := by
  rw [wlp_inFs]
  intro ip fs' hrun
  have hlooks := iget_looks hsafe.ok hsafe.held hrun
  exact ⟨hsafe.evolves hlooks.evolves (Kernel.Safe.holds_le hnn), rfl,
    (iget_self hrun).1, hlooks.sb, iget_dinode hrun⟩

/-- The file that `restore_proc` makes of a saved descriptor. -/
def File.restored (file : File) (fd : CkptFd) (ip : InodeRef) : File :=
  { file with
    type := if fd.type = FD_INODE then .inode else .device
    readable := fd.readable
    writable := fd.writable
    ip := ip
    off := UInt32.ofNat fd.off
    major := fd.major }

theorem File.restored_onInode {file : File} (hopen : 0 < file.ref)
    (fd : CkptFd) (ip : InodeRef) : (file.restored fd ip).OnInode := by
  refine ⟨hopen, ?_⟩
  unfold File.restored
  dsimp only
  split
  · exact Or.inl rfl
  · exact Or.inr rfl

theorem File.restored_fits {fs : Fs} (hnames : hdr.Names live fs) {i : Fin NOFILE}
    (hon : (hdr.fds i).OnInode) (file : File) (ip : InodeRef) :
    (file.restored (hdr.fds i) ip).Fits live (fs.dinode (hdr.fds i).inum).type := by
  refine ⟨fun htype hwrite => hnames.writes i ⟨?_, hwrite⟩, fun hlive => hnames.alloc hlive i hon⟩
  unfold File.restored at htype
  dsimp only at htype
  split at htype
  · assumption
  · cases htype

/-- What the loops of restore keep: references are counted, and the disk is
the one that the header was checked against. -/
structure Kernel.Restoring (live : Prop) (extra : InodeRef → Int)
    (hdr : CkptHeader) (kernel : Kernel) : Prop where
  safe : kernel.Safe live extra
  names : hdr.Names live kernel.fs

theorem Kernel.Restoring.sameRefs {kernel' : Kernel} (hrest : kernel.Restoring live extra hdr)
    (hsame : kernel.SameRefs kernel') : kernel'.Restoring live extra hdr :=
  ⟨hrest.safe.sameRefs hsame, by rw [hsame.fs]; exact hrest.names⟩

theorem safe_restoreFd (np : Slot) (i : Fin NOFILE) (hnn : ∀ e, 0 ≤ extra e) :
    Triple (Kernel.Restoring live extra hdr) (Kernel.Restoring live extra hdr)
      (restoreFd np hdr i) := by
  intro kernel hrest
  unfold restoreFd
  rw [wlp_bind, wlp_setOfile]
  have hrest₁ : (kernel.withOfile np i none).Restoring live extra hdr :=
    ⟨hrest.safe.withOfile np i none, hrest.names⟩
  dsimp only
  rw [wlp_ite]
  split
  · exact (wlp_pure _).mpr hrest₁
  refine wlp_seq (wlp_filealloc_safe hrest₁.safe) ?_
  rintro found kernel₂ ⟨hsafe₂, hfs₂, hfound⟩
  have hrest₂ : kernel₂.Restoring live extra hdr :=
    ⟨hsafe₂, by rw [hfs₂]; exact hrest₁.names⟩
  cases found with
  | none => exact (wlp_pure _).mpr hrest₂
  | some f =>
    obtain ⟨hopen, htype, _⟩ := hfound f rfl
    dsimp only
    rw [wlp_bind, wlp_setOfile]
    let kernel₃ := kernel₂.withOfile np i (some f)
    have hrest₃ : kernel₃.Restoring live extra hdr :=
      ⟨hsafe₂.withOfile np i (some f), hrest₂.names⟩
    change 0 < (kernel₃.file f).ref at hopen
    change (kernel₃.file f).type = .none at htype
    change wlp _ kernel₃ _
    rw [wlp_bind, wlp_setFile, wlp_ite]
    split
    · refine (wlp_pure _).mpr ⟨hrest₃.safe.withPlain ?_ (Or.inl htype), hrest₃.names⟩
      exact fun _ => htype
    rename_i hon
    rw [not_and_or, not_not, not_not] at hon
    -- between the two assignments the file names an inode that it does not
    -- hold yet, so they are taken together
    rw [wlp_bind, wlp_setFile, withFile_self, withFile_withFile, wlp_bind, wlp_inFs]
    have higet := wlp_igetByInum_safe hrest₃.safe hnn (hdr.fds i).inum
    rw [wlp_inFs] at higet
    refine wlp_mono higet ?_
    rintro ip fs₄ ⟨hsafe₄, _, hinum, hsb, hdinode⟩
    rw [wlp_bind, wlp_setFile, wlp_pure]
    have hnames₄ := hrest₃.names.of_disk hsb hdinode
    have hip : ((kernel₃.file f).restored (hdr.fds i) ip).ip = ip := rfl
    have hfile : ((kernel₃.withFs fs₄).withFile f
        ((kernel₃.file f).restored (hdr.fds i) ip)).Safe live extra := by
      refine hsafe₄.withFile ?_ (fun _ => ⟨?_, ?_⟩) ?_
      · intro hzero
        exact absurd hzero (Nat.pos_iff_ne_zero.mp hopen)
      · rw [hip, hinum]
        exact hnames₄.inum i hon
      · rw [Fs.typeOf, hip, hinum]
        exact File.restored_fits hnames₄ hon _ ip
      · intro e
        have hold := File.holds_nonneg (kernel₃.file f) e
        rw [(File.restored_onInode hopen _ ip).holds, Pi.add_apply]
        change extra e + one ip e ≤ _ + (kernel₃.file f).holds e
        omega
    exact ⟨by simpa [File.restored, Kernel.withFile, Kernel.withFs] using hfile, hnames₄⟩

/-- The loops over descriptors keep what each descriptor keeps. -/
theorem triple_eachFd {body : Fin NOFILE → Code Kernel Bool}
    {Inv : Kernel → Prop} (hbody : ∀ i, Triple Inv Inv (body i))
    (fds : List (Fin NOFILE)) : Triple Inv Inv (eachFd body fds) := by
  induction fds with
  | nil => exact triple_pure true
  | cons i rest ih =>
    exact triple_bind (hbody i) fun _ => triple_ite ih (triple_pure false)

theorem safe_restoreCwd (np : Slot) (hnn : ∀ e, 0 ≤ extra e) :
    Triple (Kernel.Restoring live extra hdr) (Kernel.Safe live extra) (restoreCwd np hdr) := by
  intro kernel hrest
  unfold restoreCwd
  rw [wlp_bind, wlp_setProc]
  have hnone : (kernel.withProc np
      { kernel.proc np with cwd := none }).Safe live extra := by
    refine hrest.safe.withProc (fun ip heq => by cases heq) fun e => ?_
    have hold := Proc.holds_nonneg (kernel.proc np) e
    change extra e + 0 ≤ _
    omega
  refine wlp_seq (wlp_igetByInum_safe hnone hnn _) ?_
  rintro ip kernel₁ ⟨hsafe₁, _, hinum, hsb, hdinode⟩
  have hnames : hdr.Names live kernel₁.fs := hrest.names.of_disk hsb hdinode
  rw [wlp_setProc]
  refine hsafe₁.withCwd np _ rfl ?_ fun hlive => ?_
  · rw [hinum]
    exact hnames.cwd
  · rw [Fs.typeOf, hinum]
    exact hnames.dir hlive

theorem safe_pipealloc (hnn : ∀ e, 0 ≤ extra e) : SafeCode live extra extra pipealloc := by
  intro kernel hsafe
  unfold pipealloc
  refine wlp_seq (wlp_filealloc_safe hsafe) ?_
  rintro f0 kernel₁ ⟨hsafe₁, _, hf0⟩
  cases f0 with
  | none => exact (wlp_pure none).mpr hsafe₁
  | some f0 =>
    dsimp only
    refine wlp_seq (wlp_filealloc_safe hsafe₁) ?_
    rintro f1 kernel₂ ⟨hsafe₂, _, hf1⟩
    cases f1 with
    | none =>
      exact triple_bind (safe_fileclose hnn f0) (fun _ => triple_pure none)
        _ hsafe₂
    | some f1 =>
      dsimp only
      rw [wlp_bind]
      refine wlp_respects_safe (respects_inMem kalloc) hsafe₂ ?_
      intro pi kernel₃ hsame₃ hsafe₃
      cases pi with
      | none =>
        exact triple_bind (safe_fileclose hnn f0) (fun _ =>
          triple_bind (safe_fileclose hnn f1) fun _ => triple_pure none)
          _ hsafe₃
      | some pi =>
        dsimp only
        rw [wlp_bind]
        refine wlp_respects_safe (respects_setPipe pi _) hsafe₃ ?_
        intro _ kernel₄ hsame₄ hsafe₄
        have hfile₄ : kernel₄.file = kernel₂.file :=
          hsame₄.file.trans hsame₃.file
        have hopen1 : 0 < (kernel₄.file f1).ref := by
          rw [hfile₄]
          exact (hf1 f1 rfl).1
        have hopen0 : 0 < (kernel₄.file f0).ref := by
          by_cases heq : f0 = f1
          · rw [heq]
            exact hopen1
          · rw [hfile₄, (hf1 f1 rfl).2.2 f0 heq]
            exact (hf0 f0 rfl).1
        rw [wlp_bind, wlp_setFile, wlp_bind, wlp_setFile, wlp_pure]
        refine Kernel.Safe.withPlain (hsafe₄.withPlain ?_ (Or.inr rfl)) ?_ (Or.inr rfl)
        · exact fun hzero => absurd hzero (Nat.pos_iff_ne_zero.mp hopen0)
        intro hzero
        by_cases heq : f1 = f0
        · subst heq
          rw [withFile_self] at hzero
          exact absurd hzero (Nat.pos_iff_ne_zero.mp hopen1)
        · rw [withFile_of_ne heq] at hzero
          exact absurd hzero (Nat.pos_iff_ne_zero.mp hopen1)

theorem safe_closeEnds (hnn : ∀ e, 0 ≤ extra e) (ends : FileRef × FileRef)
    {next : Code Kernel Bool} (hnext : SafeCode live extra extra next) :
    SafeCode live extra extra (fileclose ends.1 >>= fun _ => fileclose ends.2 >>= fun _ => next) :=
  triple_bind (safe_fileclose hnn ends.1) fun _ =>
    triple_bind (safe_fileclose hnn ends.2) fun _ => hnext

theorem safe_restorePipe (np : Slot) (hdr : CkptHeader) (i : Fin NOFILE) (hnn : ∀ e, 0 ≤ extra e) :
    SafeCode live extra extra (restorePipe np hdr i) := by
  refine triple_read_bind fun kernel => triple_ite (triple_pure _) ?_
  cases pairOf hdr (kernel.proc np).ofile i with
  | none => exact triple_pure _
  | some j =>
    refine triple_bind (safe_pipealloc hnn) fun ends => ?_
    cases ends with
    | none => exact triple_pure _
    | some ends =>
      dsimp only
      cases (hdr.fds i).pipeEnd ends with
      | none => exact safe_closeEnds hnn ends (triple_pure _)
      | some f =>
        refine triple_bind (safe_setOfile np i (some f)) fun _ => ?_
        cases (hdr.fds j).pipeEnd ends with
        | none =>
          exact safe_closeEnds hnn ends
            (triple_bind (safe_setOfile np i none) fun _ => triple_pure _)
        | some g =>
          exact triple_bind (safe_setOfile np j (some g)) fun _ => triple_pure _

theorem safe_restoreFiles (np : Slot) (hnn : ∀ e, 0 ≤ extra e) :
    Triple (Kernel.Restoring live extra hdr) (Kernel.Safe live extra) (restoreFiles np hdr) :=
  triple_bind (triple_eachFd (fun i => safe_restoreFd np i hnn) _) fun _ =>
    triple_ite (triple_bind (safe_restoreCwd np hnn) fun _ =>
        triple_eachFd (fun i => safe_restorePipe np hdr i hnn) _)
      fun _ hrest => (wlp_pure _).mpr hrest.safe

theorem safe_restoreEnd (ip : InodeRef) (result : Option Nat) :
    SafeCode live (one ip) 0 (restoreEnd ip result) :=
  triple_bind (safe_iunlockput ip) fun _ => safe_end result

theorem safe_restoreBad (ip : InodeRef) (np : Slot) :
    SafeCode live (one ip) 0 (restoreBad np ip) := by
  have hone := one_nonneg ip
  refine triple_bind (safe_closeFds hone np) fun _ => ?_
  intro kernel₁ hsafe₁
  rw [wlp_bind, wlp_read]
  have hlast : SafeCode live (one ip) 0 (acquire (.proc np) >>= fun _ =>
      freeproc np >>= fun _ => release (.proc np) >>= fun _ =>
        restoreEnd ip none) :=
    triple_bind (safe_respects (respects_acquire _)) fun _ =>
      triple_bind (safe_respects (respects_freeproc np)) fun _ =>
        triple_bind (safe_respects (respects_release _)) fun _ =>
          safe_restoreEnd ip none
  cases hcwd : (kernel₁.proc np).cwd with
  | none => exact hlast _ hsafe₁
  | some cwd =>
    have hput := wlp_iputCwd_safe hsafe₁ hone np
      (fun proc => { proc with cwd := none }) fun _ => rfl
    rw [hcwd] at hput
    rw [wlp_bind, whenSome]
    refine wlp_seq hput ?_
    rintro _ kernel₂ ⟨honly, hsafe₂, _⟩
    have hproc : kernel₂.proc np = kernel₁.proc np := by
      rw [honly]
      rfl
    rw [wlp_setProc, hproc]
    exact hlast _ hsafe₂

theorem respects_restoreTrapframe (np : Slot) (hdr : CkptHeader) :
    Respects Kernel.SameRefs (restoreTrapframe np hdr) := by
  unfold restoreTrapframe
  refine respects_read_bind fun kernel => ?_
  cases (kernel.proc np).trapframe with
  | none => exact respects_panic _
  | some frame => exact respects_inMem _

/-- All of `restoreFinish` but its end leaves references alone. -/
theorem wlp_restoreFinish {kernel : Kernel} {ip : InodeRef} {np : Slot} {hdr : CkptHeader}
    {post : Option Nat → Kernel → Prop} (hend : ∀ kernel' result, kernel.SameRefs kernel' →
      wlp (restoreEnd ip result) kernel' post) : wlp (restoreFinish np hdr ip) kernel post := by
  have hset : ∀ {change : Proc → Proc}, (∀ proc, (change proc).cwd = proc.cwd ∧
      (change proc).ofile = proc.ofile) → Respects Kernel.SameRefs (setProc np change) :=
    respects_setProc np
  have hbefore : Respects Kernel.SameRefs (do
      acquire (.proc np)
      restoreTrapframe np hdr
      setProc np (fun proc => { proc with name := safestrcpy proc.name 0 hdr.name 16 })
      acquire .wait
      setProc np (fun proc => { proc with parent := some initproc })
      release .wait
      setProc np (fun proc => { proc with state := .RUNNABLE })
      let kernel ← read
      release (.proc np)
      pure (some (kernel.proc np).pid)) :=
    respects_bind (respects_acquire _) fun _ =>
    respects_bind (respects_restoreTrapframe np hdr) fun _ =>
    respects_bind (hset fun _ => ⟨rfl, rfl⟩) fun _ => respects_bind (respects_acquire _) fun _ =>
    respects_bind (hset fun _ => ⟨rfl, rfl⟩) fun _ => respects_bind (respects_release _) fun _ =>
    respects_bind (hset fun _ => ⟨rfl, rfl⟩) fun _ => respects_read_bind fun _ =>
    respects_bind (respects_release _) fun _ => respects_pure _
  have hrun := hbefore kernel
  simp only [wlp_bind, wlp_pure] at hrun
  unfold restoreFinish
  simp only [wlp_bind]
  repeat' refine wlp_mono (by assumption) fun _ _ hrun => ?_
  exact hend _ _ hrun

theorem safe_restoreFinish (ip : InodeRef) (np : Slot) (hdr : CkptHeader) :
    SafeCode live (one ip) 0 (restoreFinish np hdr ip) := fun _ hsafe =>
  wlp_restoreFinish fun kernel' result hsame =>
    safe_restoreEnd ip result kernel' (hsafe.sameRefs hsame)

/-- Loading pages reads the file and writes memory. -/
theorem wlp_restoreAddrSpace_sameRefs (pt : PageTable) (left k off : Nat)
    (hfull : (kernel.fs.inode ip).copy.Full kernel.fs.disk) :
    wlp (restoreAddrSpace pt ip left k off) kernel (fun _ kernel' => kernel.SameRefs kernel') := by
  induction left generalizing kernel k off with
  | zero => exact (wlp_pure true).mpr (refl kernel)
  | succ left ih =>
    unfold restoreAddrSpace
    rw [wlp_bind, wlp_inFs]
    intro present fs₁ hrun
    rw [readi_kernel hfull] at hrun
    cases hrun
    rw [wlp_ite]
    split
    · exact (wlp_pure false).mpr (refl kernel)
    rw [wlp_bind, wlp_inMem]
    refine wlp_walk ?_
    split
    · rw [wlp_ite]
      split
      · rw [wlp_bind, wlp_read, wlp_bind, wlp_inFs]
        intro page fs₂ hrun
        change readi ip _ _ _ kernel.fs = _ at hrun
        rw [readi_kernel hfull] at hrun
        cases hrun
        refine wlp_seq (respects_inMem (setPage _ _) _) ?_
        intro _ kernel₃ hsame₃
        rw [wlp_ite]
        split
        · exact (wlp_pure false).mpr hsame₃
        have hfull₃ : (kernel₃.fs.inode ip).copy.Full kernel₃.fs.disk := by
          rw [hsame₃.fs]
          exact hfull
        refine wlp_mono (ih (k + 1) _ hfull₃) ?_
        exact fun _ _ hrest => trans_of Kernel.SameRefs hsame₃ hrest
      · refine wlp_seq (respects_inMem (setPage _ _) _) ?_
        intro _ kernel₃ hsame₃
        have hfull₃ : (kernel₃.fs.inode ip).copy.Full kernel₃.fs.disk := by
          rw [hsame₃.fs]
          exact hfull
        refine wlp_mono (ih (k + 1) _ hfull₃) ?_
        exact fun _ _ hrest => trans_of Kernel.SameRefs hsame₃ hrest
    · exact (wlp_pure false).mpr (refl kernel)

theorem wlp_restoreInto_safe (hrest : kernel.Restoring live (one ip) hdr)
    (hloaded : kernel.fs.Loaded ip) (np : Slot) :
    wlp (restoreInto np hdr ip) kernel (fun _ kernel' => kernel'.Safe live 0) := by
  unfold restoreInto
  rw [wlp_bind, wlp_read]
  cases (kernel.proc np).pagetable with
  | none => exact wlp_panic.mpr trivial
  | some pt =>
    dsimp only
    refine wlp_seq (respects_inMem _ kernel) fun grown kernel₁ hsame₁ => ?_
    refine wlp_seq ((by exact respects_setProc np fun _ => ⟨rfl, rfl⟩ :
      Respects Kernel.SameRefs _) kernel₁) fun _ kernel₂ hsame₂ => ?_
    have hsame₂' : kernel.SameRefs kernel₂ :=
      trans_of Kernel.SameRefs hsame₁ hsame₂
    rw [wlp_ite]
    split
    · exact safe_restoreBad ip np _ (hrest.sameRefs hsame₂').safe
    refine wlp_seq ((by exact respects_setProc np fun _ => ⟨rfl, rfl⟩ :
      Respects Kernel.SameRefs _) kernel₂) fun _ kernel₃ hsame₃ => ?_
    refine wlp_seq (respects_release _ kernel₃) fun _ kernel₄ hsame₄ => ?_
    have hsame₄' : kernel.SameRefs kernel₄ := trans_of Kernel.SameRefs
      hsame₂' (trans_of Kernel.SameRefs hsame₃ hsame₄)
    rw [wlp_bind]
    have hfull : (kernel₄.fs.inode ip).copy.Full kernel₄.fs.disk := by
      rw [hsame₄'.fs]
      exact hrest.safe.ok.full hloaded
    refine wlp_mono (wlp_restoreAddrSpace_sameRefs _ _ _ _ hfull) ?_
    intro loaded kernel₅ hsame₅
    have hrest₅ := hrest.sameRefs (trans_of Kernel.SameRefs hsame₄' hsame₅)
    have hend : ∀ ok : Bool, SafeCode live (one ip) 0
        (if ok then restoreFinish np hdr ip else restoreBad np ip) := fun _ =>
      triple_ite (safe_restoreFinish ip np hdr) (safe_restoreBad ip np)
    rw [wlp_ite]
    split
    · exact triple_bind (safe_restoreFiles np (one_nonneg ip)) hend _ hrest₅
    · rw [wlp_bind, wlp_pure]
      exact hend false _ hrest₅.safe

/-- The header that restore reads from the file `ip`, if it accepts it. -/
def headerOf (ip : InodeRef) (fs : Fs) : Option CkptHeader :=
  match (ilock ip >>= fun _ => readi ip (.kernel (fun _ => 0)) 0 HDRSZ) fs with
  | .ok (image, _) =>
    if image.1 = some HDRSZ ∧ (getHeader image.2).Valid then
      some (getHeader image.2)
    else none
  | .error _ => none

theorem wlp_restoreFile_safe (hsafe : kernel.Safe live (one ip))
    (hinum : (kernel.fs.inode ip).inum < kernel.fs.sb.ninodes)
    (hnames : ∀ hdr, headerOf ip kernel.fs = some hdr → hdr.Names live kernel.fs) :
    wlp (restoreFile ip) kernel (fun _ kernel' => kernel'.Safe live 0) := by
  have hlock := wlp_ilock_safe hsafe (one_nonneg ip) hinum
  unfold restoreFile
  rw [wlp_bind, wlp_inFs]
  rw [wlp_inFs] at hlock
  intro _ fs₁ hrun₁
  obtain ⟨hsafe₁, _, hloaded, hdisk, hsame⟩ := hlock _ fs₁ hrun₁
  have hsb : fs₁.sb = kernel.fs.sb := (hsame ip).sb
  have hdinode : fs₁.dinode = kernel.fs.dinode := by
    funext inum
    change fs₁.disk = kernel.fs.disk at hdisk
    rw [Fs.dinode, Fs.dinode, hdisk, hsb]
  rw [wlp_bind, wlp_inFs]
  intro image fs₂ hrun₂
  have hread : readi ip (.kernel fun _ => 0) 0 HDRSZ fs₁ = _ :=
    readi_kernel (hsafe₁.ok.full hloaded) (fun _ => 0) 0 HDRSZ
  have hheader : headerOf ip kernel.fs = if image.1 = some HDRSZ ∧ (getHeader image.2).Valid then
        some (getHeader image.2) else none := by
    unfold headerOf
    rw [bind_of_ok hrun₁]
    rw [show readi ip (.kernel fun _ => 0) 0 HDRSZ fs₁ = _ from hrun₂]
  rw [show readi ip (.kernel fun _ => 0) 0 HDRSZ fs₁ = _ from hrun₂] at hread
  cases hread
  dsimp only
  rw [wlp_ite]
  split
  · exact safe_restoreEnd ip none _ hsafe₁
  rename_i hvalid
  rw [not_or, not_not, not_not] at hvalid
  rw [if_pos hvalid] at hheader
  refine wlp_seq (respects_allocproc _) ?_
  intro np kernel₃ hsame₃
  have hrest : (kernel.withFs fs₁).Restoring live (one ip) _ :=
    ⟨hsafe₁, (hnames _ hheader).of_disk hsb hdinode⟩
  have hrest₃ := hrest.sameRefs hsame₃
  cases np with
  | none => exact safe_restoreEnd ip none _ hrest₃.safe
  | some np =>
    refine wlp_restoreInto_safe hrest₃ ?_ np
    rw [hsame₃.fs]
    exact hloaded

/-- The header in the file at `path`, if restore accepts it. -/
def savedHeader (kernel : Kernel) (cur : Slot) (path : Name) : Option CkptHeader :=
  match namei (kernel.proc cur).cwd path kernel.begun.fs with
  | .ok (some ip, fs) => headerOf ip fs
  | _ => none

/-- An inode that is there and that no path lookup frees: it is linked, or
somebody holds it. -/
def Kernel.Alive (kernel : Kernel) (inum : Nat) : Prop :=
  (kernel.fs.dinode inum).type ≠ 0 ∧ ((kernel.fs.dinode inum).nlink ≠ 0 ∨
    ∃ e, 0 < kernel.holds e ∧ (kernel.fs.inode e).inum = inum)

instance (kernel : Kernel) (inum : Nat) : Decidable (kernel.Alive inum) :=
  inferInstanceAs (Decidable (_ ∧ (_ ∨ ∃ _ : InodeRef, _)))

/-- What a saved descriptor may name.  An inode that can be written through
it, and with `live` every inode, has to be there still. -/
def CkptFd.Present (live : Prop) (fd : CkptFd) (kernel : Kernel) : Prop :=
  fd.inum < kernel.fs.sb.ninodes ∧ (live ∨ fd.Writes → kernel.Alive fd.inum) ∧
    (fd.Writes → (kernel.fs.dinode fd.inum).type ≠ T_DIR)

instance [Decidable live] (fd : CkptFd) (kernel : Kernel) : Decidable (fd.Present live kernel) :=
  inferInstanceAs (Decidable (_ ∧ (_ → _) ∧ (_ → _)))

/-- What a header may name. -/
def CkptHeader.Present (live : Prop) (hdr : CkptHeader) (kernel : Kernel) : Prop :=
  (∀ i, (hdr.fds i).OnInode → (hdr.fds i).Present live kernel) ∧
    hdr.cwd < kernel.fs.sb.ninodes ∧ (live → kernel.Alive hdr.cwd ∧
      (kernel.fs.dinode hdr.cwd).type = T_DIR)

instance [Decidable live] (hdr : CkptHeader) (kernel : Kernel) :
    Decidable (hdr.Present live kernel) :=
  inferInstanceAs (Decidable ((∀ _ : Fin NOFILE, _ → _) ∧ _ ∧ (_ → _)))

/-- The names are still good when the file has been found. -/
theorem CkptHeader.Present.names {d : InodeRef → Int}
    {fs' : Fs} (hpresent : hdr.Present live kernel)
    (hlooks : Fs.Looks kernel.holds d kernel.fs fs') : hdr.Names live fs' := by
  obtain ⟨hfds, hcwd, hdir⟩ := hpresent
  have hsame : ∀ inum, inum < kernel.fs.sb.ninodes → kernel.Alive inum →
      fs'.dinode inum = kernel.fs.dinode inum := fun inum hinum halive =>
    (hlooks.kept inum hinum halive.1 halive.2).1
  refine ⟨?_, ?_, ?_, by rwa [hlooks.sb], ?_⟩
  · intro i hon
    rw [hlooks.sb]
    exact (hfds i hon).1
  · intro hlive i hon
    obtain ⟨hinum, halive, _⟩ := hfds i hon
    rw [hsame _ hinum (halive (Or.inl hlive))]
    exact (halive (Or.inl hlive)).1
  · intro i hwrites
    obtain ⟨hinum, halive, hfile⟩ := hfds i (Or.inl hwrites.1)
    rw [hsame _ hinum (halive (Or.inr hwrites))]
    exact ⟨(halive (Or.inr hwrites)).1, hfile hwrites⟩
  · intro hlive
    rw [hsame _ hcwd (hdir hlive).1]
    exact (hdir hlive).2

theorem wlp_restoreProc_safe (hsafe : kernel.Safe live 0) (cur : Slot)
    (path : Name) (hpresent : ∀ hdr ∈ savedHeader kernel cur path, hdr.Present live kernel) :
    wlp (restoreProc cur path) kernel (fun _ kernel' => kernel'.Safe live 0) := by
  have hbegun : kernel.begun.Safe live 0 := hsafe.withLog _
  unfold restoreProc
  rw [wlp_bind, wlp_inFs]
  refine wlp_beginOp ?_
  change wlp _ kernel.begun _
  rw [wlp_bind, wlp_read, wlp_bind, wlp_inFs]
  intro found fs₁ hrun
  have hlookup := wlp_of_ends (ends_namei hbegun.ok kernel.begun.holds_nonneg
    hbegun.heldHolds (hbegun.cwdHeld cur) path) found fs₁ hrun
  rcases hlookup with ⟨rfl, hmiss⟩ | ⟨ip, rfl, hnamed⟩
  · exact safe_end _ _ (hbegun.evolves_same hmiss.looks.evolves)
  refine wlp_restoreFile_safe (hbegun.evolves_zero hnamed.looks.evolves) ?_ fun hdr hheader => ?_
  · rw [withFs_fs, hnamed.looks.sb]
    exact hnamed.inum
  have hsaved : savedHeader kernel cur path = some hdr := by
    unfold savedHeader
    rw [show namei (kernel.proc cur).cwd path kernel.begun.fs = .ok (some ip, fs₁) from hrun]
    exact hheader
  have hbefore : hdr.Present live kernel.begun := hpresent hdr hsaved
  exact hbefore.names hnamed.looks

end SafeRestore

end CkptKernel
