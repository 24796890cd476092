/-
System calls and address spaces.  Calls on files and names leave them alone;
fork, exit, wait, restore and page faults keep the shape that the size says.
-/
import CkptKernel.CallRuns
import CkptKernel.SpaceKeeping

namespace CkptKernel

open ByteMem Code TableSum

section Files

variable {Inv : Kernel → Prop}

theorem sane_free : Sane (.panic "freeing free block") := sane_panic (by decide)

theorem sane_lock : Sane (.panic "ilock: no type") := sane_panic (by decide)

theorem keeps_argfd (p : Slot) (fd : Nat) : Keeps Sane Inv (argfd p fd) := by
  refine leads_read_bind fun kernel => ?_
  split
  · exact leads_pure _
  · exact leads_pure _

variable [SpaceInv Inv]

theorem quiet_fdalloc {stops : Stop → Prop} (p : Slot) (f : FileRef) :
    Quiet stops (fdalloc p f) := by
  refine leads_read_bind fun kernel => ?_
  split
  · exact leads_pure _
  · exact leads_bind (quiet_update _) fun _ => leads_pure _

theorem ends_filedup {kernel : Kernel} (f : FileRef) : ends (filedup f) kernel (fun _ kernel' =>
    kernel' = kernel.withFile f { kernel.file f with ref := (kernel.file f).ref + 1 }) Sane := by
  rw [filedup, ends_bind, ends_read, ends_ite]
  split
  · exact sane_panic (by decide)
  · exact ends_update.mpr rfl

theorem keeps_sysDup (p : Slot) (fd : Nat) : Keeps Sane Inv (sysDup p fd) := by
  refine leads_bind (keeps_argfd p fd) fun arg => ?_
  cases arg with
  | none => exact leads_pure _
  | some arg =>
    intro kernel hinv
    refine ends_seq (Quiet.ends (quiet_fdalloc p arg.2) (wlp_fdalloc p arg.2)) ?_
    rintro (_ | new) kernel₁ hdone
    · cases hdone
      exact hinv
    obtain ⟨_, rfl⟩ := hdone
    refine ends_seq (ends_filedup arg.2) ?_
    rintro _ _ rfl
    refine SpaceInv.moves hinv ((kernel.moves_withOfile p new _).trans (Kernel.moves_dup _ _)) ?_
    exact fun f => by omega

theorem keeps_sysClose (p : Slot) (fd : Nat) : Keeps Sane Inv (sysClose p fd) := by
  intro kernel hinv
  unfold sysClose argfd
  rw [ends_bind, ends_bind, ends_read]
  split
  next hfd =>
    rw [ends_pure]
    cases hopen : (kernel.proc p).ofile ⟨fd, hfd⟩ with
    | none => exact hinv
    | some f =>
      dsimp only [Option.map_some]
      rw [ends_bind, ends_setOfile]
      refine ends_seq (ends_fileclose f) fun _ kernel₁ hcloses => ?_
      refine SpaceInv.moves hinv ((kernel.moves_withOfile p _ none).trans hcloses.moves) ?_
      intro g
      rw [hopen, fdIs_none]
      omega
  next => exact hinv

theorem keeps_filewriteFrom (f : FileRef) (buf : Nat → Buffer) (n : Nat)
    (fuel i : Nat) : Keeps Sane Inv (filewriteFrom f buf n fuel i) := by
  induction fuel generalizing i with
  | zero => exact leads_pure _
  | succ fuel ih =>
    refine leads_ite ?_ (leads_pure _)
    refine leads_bind (keeps_inFs quiet_beginOp) fun _ =>
      leads_read_bind fun kernel =>
      leads_bind (keeps_inFs (quiet_ilock sane_lock _)) fun _ =>
      leads_bind (keeps_inFs (quiet_writei _ _ _)) fun r =>
      leads_bind (keeps_setFile _ fun _ => ⟨rfl, rfl, rfl, rfl⟩) fun _ =>
      leads_bind (keeps_inFs (quiet_iunlock _)) fun _ =>
      leads_bind (keeps_inFs quiet_endOp) fun _ => ?_
    exact leads_ite (leads_pure _) (ih _)

omit [SpaceInv Inv] in
theorem keeps_pipewriteFrom (p : Slot) (pi : Frame) (buf : Nat → Buffer) (room left i : Nat) :
    Keeps Sane Inv (pipewriteFrom p pi buf room left i) := by
  induction left generalizing i with
  | zero => exact leads_pure _
  | succ left ih =>
    exact leads_read_bind fun _ => leads_ite (leads_pure _)
      (leads_ite (leads_stop sane_sleep) (leads_ite (leads_pure _) (ih _)))

theorem keeps_sysWrite (p : Slot) (fd : Nat) (buf : Nat → Buffer) (n : Int) (room : Nat) :
    Keeps Sane Inv (sysWrite p fd buf n room) := by
  refine leads_bind (keeps_argfd p fd) fun arg => ?_
  cases arg with
  | none => exact leads_pure _
  | some arg =>
    refine leads_read_bind fun kernel => leads_ite (leads_pure _) ?_
    split
    · exact keeps_pipewriteFrom _ _ _ _ _ _
    · exact leads_ite (leads_pure _) (leads_pure _)
    · exact leads_bind (keeps_filewriteFrom _ _ _ _ _) fun _ => leads_pure _
    · exact keeps_panic (by decide)

theorem keeps_endOp : Keeps Sane Inv (inFs endOp) :=
  keeps_inFs quiet_endOp

/-- The end of a call. -/
theorem keeps_end {A : Type} (value : A) :
    Keeps Sane Inv (inFs endOp >>= fun _ => pure value) :=
  leads_bind keeps_endOp fun _ => leads_pure value

theorem keeps_inOp {A : Type} {code : Code Fs A} (hquiet : Quiet Sane code) :
    Keeps Sane Inv (inOp code) :=
  leads_bind (keeps_inFs quiet_beginOp) fun _ =>
    leads_bind (keeps_inFs hquiet) fun _ =>
      keeps_end _

theorem keeps_sysChdir (p : Slot) (path : Name) : Keeps Sane Inv (sysChdir p path) := by
  refine leads_bind (keeps_inFs quiet_beginOp) fun _ =>
    leads_read_bind fun kernel =>
    leads_bind (keeps_inFs (quiet_namei sane_free sane_lock _ _)) fun found => ?_
  cases found with
  | none => exact keeps_end _
  | some ip =>
    refine leads_bind (keeps_inFs (quiet_ilock sane_lock _)) fun _ =>
      leads_read_bind fun kernel => leads_ite ?_ ?_
    · exact leads_bind (keeps_inFs (quiet_iunlockput sane_free)) fun _ =>
        keeps_end _
    · exact leads_bind (keeps_inFs (quiet_iunlock _)) fun _ =>
        leads_bind (keeps_inFs (quiet_iputCwd sane_free _)) fun _ =>
        leads_bind keeps_endOp fun _ =>
        leads_bind (keeps_setProc p fun _ => ⟨rfl, rfl⟩) fun _ => leads_pure _

theorem keeps_openFail (ip : InodeRef) : Keeps Sane Inv (openFail ip) :=
  leads_bind (keeps_inFs (quiet_iunlockput sane_free)) fun _ =>
    keeps_end _

/-- A file that was free gets a descriptor and a type. -/
theorem SpaceInv.opened {kernel : Kernel} (hinv : Inv kernel) (p : Slot) {f : FileRef}
    (i : Fin NOFILE) (hfree : (kernel.file f).ref = 0) {file : File} (href : file.ref = 1)
    (htype : file.type = (kernel.file f).type ∨ file.type ≠ .pipe) :
    Inv (((kernel.withFile f (kernel.file f).taken).withOfile p i (some f)).withFile f file) := by
  have hswap : ((kernel.withFile f (kernel.file f).taken).withOfile p i (some f)).withFile f file =
      (kernel.withFile f file).withOfile p i (some f) := by
    simp [Kernel.withOfile, Kernel.withProc, Kernel.withFile]
  rw [hswap]
  exact SpaceInv.moves hinv ((kernel.moves_taken file hfree href htype).trans
    (Kernel.moves_withOfile _ p i (some f))) fun g => by omega

theorem keeps_openWith (p : Slot) (ip : InodeRef) (omode : UInt32) :
    Keeps Sane Inv (openWith p ip omode) := by
  refine leads_read_bind fun _ => leads_ite (keeps_openFail ip) fun kernel hinv => ?_
  refine ends_seq (Quiet.ends quiet_filealloc wlp_filealloc) ?_
  rintro _ _ (⟨rfl, rfl, _⟩ | ⟨f, rfl, hfree, rfl⟩)
  · exact keeps_openFail ip _ hinv
  dsimp only
  refine ends_seq (Quiet.ends (quiet_fdalloc p f) (wlp_fdalloc p f)) ?_
  rintro (_ | fd) kernel₁ hdone
  · subst hdone
    refine ends_seq (ends_fileclose f) fun _ kernel₂ hcloses => keeps_openFail ip _ ?_
    refine SpaceInv.moves hinv ((kernel.moves_taken _ hfree
      (show (kernel.file f).taken.ref = 1 from rfl) (Or.inl rfl)).trans hcloses.moves) ?_
    exact fun g => by omega
  · obtain ⟨_, rfl⟩ := hdone
    dsimp only
    rw [openFile, ends_bind, ends_read, ends_bind, ends_setFile]
    refine (leads_bind (leads_when (keeps_inFs (quiet_itrunc sane_free))) fun _ =>
      leads_bind (keeps_inFs (quiet_iunlock _)) fun _ =>
      keeps_end _ : Keeps Sane Inv _) _ ?_
    refine SpaceInv.opened hinv p fd hfree ((opened_ref _ ip _ omode).trans ?_) (Or.inr ?_)
    · exact congrArg File.ref (withFile_self _)
    · rw [opened_type]
      split <;> simp

theorem keeps_sysOpen (p : Slot) (path : Name) (omode : UInt32) :
    Keeps Sane Inv (sysOpen p path omode) := by
  refine leads_bind (keeps_inFs quiet_beginOp) fun _ =>
    leads_read_bind fun kernel =>
    leads_bind (keeps_inFs (quiet_openInode sane_free sane_lock _ _ _)) fun ip => ?_
  cases ip with
  | none => exact keeps_end _
  | some ip => exact keeps_openWith p ip omode

theorem keeps_closeFd (p : Slot) (i : Fin NOFILE) : Keeps Sane Inv (closeFd p i) := by
  intro kernel hinv
  rw [closeFd, ends_bind, ends_read]
  cases hopen : (kernel.proc p).ofile i with
  | none => exact hinv
  | some f =>
    refine ends_seq (ends_fileclose f) fun _ kernel₁ hcloses => ends_setOfile.mpr ?_
    refine SpaceInv.moves hinv (hcloses.moves.trans (kernel₁.moves_withOfile p i none)) fun g => ?_
    rw [hcloses.proc, hopen, fdIs_none]
    omega

theorem keeps_forkFd (p np : Slot) (i : Fin NOFILE) : Keeps Sane Inv (forkFd p np i) := by
  refine leads_read_bind fun _ => leads_whenSome (fun f kernel hinv => ?_) _
  refine ends_seq (ends_filedup f) ?_
  rintro _ _ rfl
  refine ends_setOfile.mpr (SpaceInv.moves hinv ((Kernel.moves_dup _ f).trans
    (Kernel.moves_withOfile _ np i (some f))) fun g => ?_)
  omega

theorem keeps_forkTrapframe (p np : Slot) : Keeps Sane Inv (forkTrapframe p np) := by
  refine leads_read_bind fun kernel => ?_
  split
  · exact keeps_setPage _ _
  · exact keeps_panic (by decide)

theorem keeps_forkCwd (p np : Slot) : Keeps Sane Inv (forkCwd p np) := by
  refine leads_read_bind fun kernel => ?_
  split
  · exact keeps_panic (by decide)
  · exact leads_bind (keeps_inFs (quiet_idup _)) fun _ =>
      keeps_setProc np fun _ => ⟨rfl, rfl⟩

end Files

section Calls

variable {total : Pool} {extra : Frame → Int} {p : Slot}
  {space : ProcSpace} {kernel kernel₁ : Kernel} {busy : Option Slot}
  {Inv : Kernel → Prop} [SpaceInv Inv]

/-- A frame on the free list is not a pipe. -/
theorem Kernel.Spaces.pipe_of_free (hspaces : kernel.Spaces total extra busy)
    (hsole : total.Sole extra) {pi : Frame}
    (hfree : pi ∈ kernel.mem.free) : kernel.pipe pi = none := by
  have hframes := hspaces.frames pi
  have hcount := List.count_pos_iff.mpr hfree
  have htotal := hsole.le_one pi
  have hextra := hsole.nonneg pi
  unfold Kernel.uses at hframes
  cases hpipe : kernel.pipe pi with
  | none => rfl
  | some pipe =>
    rw [hpipe, Option.elim_some] at hframes
    omega

/-- The references that `pipealloc` hands out. -/
def pipeGain (made : Option (FileRef × FileRef)) (f : FileRef) : Int :=
  made.elim 0 fun made => fdIs (some made.1) f + fdIs (some made.2) f

/-- Both files of a new pipe are closed again. -/
theorem ends_closeBoth {gain : FileRef → Int} {made : FileRef × FileRef}
    (hmoves : kernel.Moves gain kernel₁) {A : Type} {rest : Code Kernel A}
    {post : A → Kernel → Prop} (hrest : ∀ kernel', kernel'.proc = kernel₁.proc →
      kernel.Moves (fun f => gain f - pipeGain (some made) f) kernel' →
      ends rest kernel' post Sane) :
    ends (fileclose made.1 >>= fun _ => fileclose made.2 >>= fun _ => rest) kernel₁ post Sane := by
  refine ends_seq (ends_fileclose made.1) fun _ kernel₂ hfirst => ?_
  refine ends_seq (ends_fileclose made.2) fun _ kernel₃ hnext => ?_
  refine hrest kernel₃ (hnext.proc.trans hfirst.proc)
    (((hmoves.trans hfirst.moves).trans hnext.moves).mono fun f => ?_)
  dsimp only [pipeGain, Option.elim]
  omega

/-- The file of an end of a new pipe. -/
def File.asEnd (file : File) (pi : Frame) (readable writable : UInt8) : File :=
  { file with type := .pipe, ref := 1, readable := readable, writable := writable, pipe := pi }

theorem Kernel.moves_newPipe {f0 f1 : FileRef} {pi : Frame} {rest : List Frame}
    (hfresh : ∀ pi ∈ kernel.mem.free, kernel.pipe pi = none) (hfree : kernel.mem.free = pi :: rest)
    (hne : f1 ≠ f0) (hfree0 : (kernel.file f0).ref = 0) (hfree1 : (kernel.file f1).ref = 0) :
    kernel.Moves (pipeGain (some (f0, f1))) { kernel with
      mem := { kernel.mem with free := rest }
      pipe := Function.update kernel.pipe pi (some ⟨true, true⟩)
      file := Function.update (Function.update kernel.file f0 ((kernel.file f0).asEnd pi 1 0)) f1
        ((kernel.file f1).asEnd pi 0 1) } where
  spare := by
    refine kernel.spare_withPipe pi (some ⟨true, true⟩) _ fun f => ?_
    rw [hfresh pi (hfree ▸ List.mem_cons_self), hfree, count_cons_frame]
    rfl
  spaces _ := rfl
  pipes hok := hok.open hne (hok.closed f0 hfree0) (hok.closed f1 hfree1)
    (hfresh pi (hfree ▸ List.mem_cons_self)) ⟨by simp [File.asEnd], rfl, rfl, rfl⟩
    ⟨by simp [File.asEnd], rfl, rfl, rfl⟩
  slack f := by
    have hfirst := @slack_withFile kernel f0 ((kernel.file f0).asEnd pi 1 0) 1
      (by rw [hfree0]; rfl) f
    have hnext := @slack_withFile (kernel.withFile f0 ((kernel.file f0).asEnd pi 1 0)) f1
      ((kernel.file f1).asEnd pi 0 1) 1 (by rw [withFile_of_ne hne, hfree1]; rfl) f
    change _ ≤ ((kernel.withFile f0 ((kernel.file f0).asEnd pi 1 0)).withFile f1
      ((kernel.file f1).asEnd pi 0 1)).slack f
    dsimp only [pipeGain, Option.elim]
    omega

theorem ends_pipealloc (hfresh : ∀ pi ∈ kernel.mem.free, kernel.pipe pi = none) :
    ends pipealloc kernel (fun made kernel' =>
      kernel'.proc = kernel.proc ∧ kernel.Moves (pipeGain made) kernel') Sane := by
  refine ends_seq (Quiet.ends quiet_filealloc wlp_filealloc) ?_
  rintro _ _ (⟨rfl, rfl, _⟩ | ⟨f0, rfl, hfree0, rfl⟩)
  · exact ⟨rfl, .same rfl rfl rfl fun _ => ⟨rfl, rfl⟩⟩
  have hmoves0 := kernel.moves_taken (kernel.file f0).taken hfree0 rfl (Or.inl rfl)
  dsimp only
  refine ends_seq (Quiet.ends quiet_filealloc wlp_filealloc) ?_
  rintro _ _ (⟨rfl, rfl, _⟩ | ⟨f1, rfl, hfree1, rfl⟩)
  · refine ends_seq (ends_fileclose f0) fun _ kernel₁ hcloses => ⟨hcloses.proc, ?_⟩
    exact (hmoves0.trans hcloses.moves).mono fun f => by dsimp only [pipeGain, Option.elim]; omega
  have hmoves1 := hmoves0.trans (Kernel.moves_taken (File.taken _) hfree1 rfl (Or.inl rfl))
  have hne : f1 ≠ f0 := by
    rintro rfl
    rw [withFile_self] at hfree1
    cases hfree1
  rw [withFile_of_ne hne] at hfree1
  dsimp only
  rw [ends_bind, inMem, ends_within]
  change ends kalloc kernel.mem _ _
  cases hfree : kernel.mem.free with
  | nil =>
    refine ends_of_eq (by rw [kalloc, hfree]) ?_
    refine @ends_closeBoth _ _ _ (f0, f1) hmoves1 _ _ _ fun kernel' hproc hmoves =>
      ⟨hproc, hmoves.mono fun f => ?_⟩
    dsimp only [pipeGain, Option.elim]
    omega
  | cons pi rest =>
    refine ends_of_eq (by rw [kalloc, hfree]) ?_
    dsimp only
    rw [ends_bind, setPipe, ends_update, ends_bind, ends_setFile, ends_bind, ends_setFile,
      ends_pure]
    have hdone := Kernel.moves_newPipe hfresh hfree hne hfree0 hfree1
    refine ⟨rfl, ?_⟩
    simpa [Kernel.withFile, File.taken, File.asEnd, Function.update_of_ne hne,
      Function.update_of_ne hne.symm, Function.update_comm hne] using hdone

/-- Of two saved descriptors of one pipe, one is for reading and one is not. -/
def CkptHeader.Paired (hdr : CkptHeader) : Prop :=
  ∀ i j, i < j → (hdr.fds i).type = FD_PIPE → (hdr.fds j).type = FD_PIPE →
    (hdr.fds j).pipeId = (hdr.fds i).pipeId → ((hdr.fds i).readable = 0 ↔ (hdr.fds j).readable ≠ 0)

instance (hdr : CkptHeader) : Decidable hdr.Paired :=
  inferInstanceAs (Decidable (∀ _ _, _))

theorem CkptHeader.Paired.ends {hdr : CkptHeader} (hpaired : hdr.Paired) {i j : Fin NOFILE}
    {ofile : Fin NOFILE → Option FileRef} {made : FileRef × FileRef} {f f' : FileRef}
    (htype : (hdr.fds i).type = FD_PIPE) (hpair : pairOf hdr ofile i = some j)
    (hi : (hdr.fds i).pipeEnd made = some f) (hj : (hdr.fds j).pipeEnd made = some f')
    (g : FileRef) : pipeGain (some made) g = fdIs (some f) g + fdIs (some f') g := by
  unfold pairOf at hpair
  have hfound := List.find?_some hpair
  obtain ⟨hlt, hother, hid, _⟩ := of_decide_eq_true hfound
  have hflags := hpaired i j hlt htype hother hid
  unfold CkptFd.pipeEnd at hi hj
  dsimp only [pipeGain, Option.elim]
  by_cases hread : (hdr.fds i).readable = 0
  · simp [hread] at hi
    simp [hflags.mp hread] at hj
    rw [← hi.2, ← hj.2, add_comm]
  · simp [hread] at hi
    simp [not_not.mp (mt hflags.mpr hread)] at hj
    rw [← hi.2, ← hj.2]

section Pipes

variable (hpipes : ∀ kernel, Inv kernel → ∀ pi ∈ kernel.mem.free, kernel.pipe pi = none)

include hpipes

omit [SpaceInv Inv] hpipes in
theorem keeps_eachFd {body : Fin NOFILE → Code Kernel Bool} (hbody : ∀ i, Keeps Sane Inv (body i))
    (fds : List (Fin NOFILE)) : Keeps Sane Inv (eachFd body fds) := by
  induction fds with
  | nil => exact leads_pure _
  | cons i rest ih =>
    exact leads_bind (hbody i) fun _ => leads_ite ih (leads_pure _)

omit hpipes in
theorem keeps_igetByInum (inum : Nat) : Keeps Sane Inv (inFs (igetByInum inum)) :=
  keeps_inFs (quiet_iget inum)

omit hpipes in
theorem keeps_restoreFd (np : Slot) (hdr : CkptHeader) (i : Fin NOFILE) :
    Keeps Sane Inv (restoreFd np hdr i) := by
  refine leads_bind (keeps_clearOfile np i) fun _ =>
    leads_ite (leads_pure _) fun kernel hinv => ?_
  refine ends_seq (Quiet.ends quiet_filealloc wlp_filealloc) ?_
  rintro _ _ (⟨rfl, rfl, _⟩ | ⟨f, rfl, hfree, rfl⟩)
  · exact hinv
  dsimp only
  have hself : ((kernel.withFile f (kernel.file f).taken).withOfile np i (some f)).file f =
      (kernel.file f).taken := withFile_self _
  rw [ends_bind, ends_setOfile, ends_bind, ends_setFile, hself, ends_ite]
  split
  · exact SpaceInv.opened hinv np i hfree rfl (Or.inl rfl)
  rw [ends_bind, ends_setFile, withFile_self, withFile_withFile]
  refine (?_ : Keeps Sane Inv _) _ (SpaceInv.opened hinv np i hfree rfl (Or.inr ?_))
  · exact leads_bind (keeps_igetByInum _) fun _ =>
      leads_bind (keeps_setFile _ fun _ => ⟨rfl, rfl, rfl, rfl⟩) fun _ => leads_pure _
  · dsimp only
    split <;> simp

omit hpipes in
theorem keeps_restoreCwd (np : Slot) (hdr : CkptHeader) : Keeps Sane Inv (restoreCwd np hdr) :=
  leads_bind (keeps_setProc np fun _ => ⟨rfl, rfl⟩) fun _ =>
    leads_bind (keeps_igetByInum _) fun _ => keeps_setProc np fun _ => ⟨rfl, rfl⟩

/-- The pipe of an entry of the header is allocated, and both its ends get a
descriptor each, if the header is paired. -/
theorem keeps_restorePipe (np : Slot) {hdr : CkptHeader}
    (hpaired : SpaceInv.counted Inv → hdr.Paired) (i : Fin NOFILE) :
    Keeps Sane Inv (restorePipe np hdr i) := by
  intro kernel hinv
  rw [restorePipe, ends_bind, ends_read, ends_ite]
  split
  · exact hinv
  next hskip =>
  rw [not_or, not_not, not_not] at hskip
  cases hpair : pairOf hdr (kernel.proc np).ofile i with
  | none => exact hinv
  | some j =>
    dsimp only
    refine ends_seq (ends_pipealloc (hpipes kernel hinv)) ?_
    rintro (_ | made) kernel₁ ⟨hproc, hmoves⟩
    · exact SpaceInv.moves hinv hmoves fun f => Int.le_refl 0
    dsimp only
    cases hi : (hdr.fds i).pipeEnd made with
    | none =>
      exact ends_closeBoth hmoves fun kernel' _ hdone =>
        SpaceInv.moves hinv hdone fun f => by omega
    | some f =>
      dsimp only
      rw [ends_bind, ends_setOfile]
      have hmoves₁ := hmoves.trans (kernel₁.moves_withOfile np i (some f))
      cases hj : (hdr.fds j).pipeEnd made with
      | none =>
        refine ends_closeBoth hmoves₁ fun kernel' hproc' hdone => ?_
        rw [ends_bind, ends_setOfile, ends_pure]
        refine SpaceInv.moves hinv (hdone.trans (kernel'.moves_withOfile np i none)) fun g => ?_
        rw [hproc', Kernel.withOfile, withProc_self]
        dsimp only
        rw [Function.update_self, fdIs_none]
        omega
      | some f' =>
        dsimp only
        rw [ends_bind, ends_setOfile, ends_pure]
        refine SpaceInv.congr hinv (hmoves₁.trans (Kernel.moves_withOfile _ np j (some f')))
          fun hcounted g => ?_
        have hends := (hpaired hcounted).ends hskip.1 hpair hi hj g
        omega

theorem keeps_restoreFiles (np : Slot) {hdr : CkptHeader}
    (hpaired : SpaceInv.counted Inv → hdr.Paired) : Keeps Sane Inv (restoreFiles np hdr) :=
  leads_bind (keeps_eachFd (keeps_restoreFd np hdr) _) fun _ =>
    leads_ite (leads_bind (keeps_restoreCwd np hdr) fun _ =>
      keeps_eachFd (keeps_restorePipe hpipes np hpaired) _) (leads_pure _)

end Pipes

/-- The end of restore. -/
theorem keeps_restoreEnd (ip : InodeRef)
    (result : Option Nat) : Keeps Sane Inv (restoreEnd ip result) :=
  leads_bind (keeps_inFs (quiet_iunlockput sane_free)) fun _ =>
    keeps_end _

omit [SpaceInv Inv] in
/-- Pages of an address space can be looked up. -/
theorem keeps_walk (pt : PageTable) {k : Nat} (hk : k < NPAGE) :
    Keeps Sane Inv (inMem (walk pt (k * PGSIZE))) := by
  intro kernel hinv
  rwa [inMem, ends_within, walk_page pt hk]

theorem keeps_checkpointAddrSpace (pt : PageTable) (ip : InodeRef) (left k off : Nat)
    (hend : k + left ≤ NPAGE) : Keeps Sane Inv (checkpointAddrSpace pt ip left k off) := by
  induction left generalizing k off with
  | zero => exact leads_pure _
  | succ left ih =>
    refine leads_bind (keeps_walk pt (by omega)) fun pte =>
      leads_read_bind fun kernel =>
      leads_bind (keeps_inFs (quiet_writei _ _ _)) fun written =>
      leads_ite (leads_pure _) ?_
    cases pte with
    | none => exact ih _ _ (by omega)
    | some pte =>
      exact leads_bind (keeps_inFs (quiet_writei _ _ _)) fun _ =>
        leads_ite (leads_pure _) (ih _ _ (by omega))

theorem keeps_restoreAddrSpace (pt : PageTable) (ip : InodeRef) (left k off : Nat)
    (hend : k + left ≤ NPAGE) : Keeps Sane Inv (restoreAddrSpace pt ip left k off) := by
  induction left generalizing k off with
  | zero => exact leads_pure _
  | succ left ih =>
    refine leads_bind (keeps_inFs (quiet_readi _ _ _)) fun present =>
      leads_ite (leads_pure _) (leads_bind (keeps_walk pt (by omega)) fun pte => ?_)
    split
    · refine leads_ite ?_ ?_
      · exact leads_read_bind fun _ =>
          leads_bind (keeps_inFs (quiet_readi _ _ _)) fun _ =>
          leads_bind (keeps_setPage _ _) fun _ =>
          leads_ite (leads_pure _) (ih _ _ (by omega))
      · exact leads_bind (keeps_setPage _ _) fun _ => ih _ _ (by omega)
    · exact leads_pure _

/-! ### Checkpoint -/

theorem keeps_checkpointWrite (p : Slot) (ip : InodeRef) (hdr : CkptHeader) (stack : Bytes) :
    Keeps Sane (Kernel.Spaces total extra none) (checkpointWrite p ip hdr stack) := by
  refine leads_bind (keeps_inFs (quiet_writei _ _ _)) fun _ =>
    leads_ite (leads_pure _) ?_
  intro kernel hspaces
  rw [ends_bind, ends_read]
  cases hpt : (kernel.proc p).pagetable with
  | none => exact sane_panic (by decide)
  | some pt =>
    obtain ⟨tf, _, hspace⟩ := (hspaces.sound p (by simp)).shaped pt hpt
    have hle := hspace.le
    have hTOP := TOP_lt
    refine keeps_checkpointAddrSpace pt ip _ 0 _ ?_ kernel hspaces
    change 0 + pagesOf (kernel.proc p).space.sz ≤ NPAGE
    omega

theorem keeps_checkpointProc (p : Slot) (path : Name) (stack : Bytes) :
    Keeps Sane (Kernel.Spaces total extra none) (checkpointProc p path stack) := by
  refine leads_bind (keeps_inFs quiet_beginOp) fun _ => leads_bind ?_ fun _ =>
    keeps_end _
  refine leads_read_bind fun kernel => leads_bind
    (keeps_inFs (quiet_create sane_free sane_lock _ _ _ _ _)) fun ip => ?_
  cases ip with
  | none => exact leads_pure _
  | some ip =>
    have hend : ∀ ok : Bool, Keeps Sane (Kernel.Spaces total extra none) (do
        inFs (iunlockput ip)
        pure ok) := fun ok =>
      leads_bind (keeps_inFs (quiet_iunlockput sane_free)) fun _ =>
        leads_pure ok
    refine leads_read_bind fun kernel => ?_
    dsimp only
    split
    · exact leads_bind (leads_pure _) hend
    · exact leads_bind (keeps_checkpointWrite p ip _ stack) hend

/-! ### Fork, exit and restore -/

/-- The process may sleep, run or die, but not vanish. -/
theorem Kernel.Working.set_state {change : Proc → Proc}
    {stops : Stop → Prop} (hwork : kernel.Working total extra p space kernel₁) (state : ProcState)
    (hchange : ∀ proc, (change proc).space = { proc.space with state := state } ∧
      (change proc).ofile = proc.ofile) :
    ends (setProc p change) kernel₁ (fun _ => kernel.Working total extra p
      { space with state := state }) stops :=
  hwork.set extra (fun space => { space with state := state }) hchange fun _ => rfl

theorem ProcSpace.Sound.with_state {state : ProcState} (hsound : space.Sound)
    (hlive : space.state ≠ .UNUSED) (hstate : state ≠ .UNUSED) :
    ({ space with state := state } : ProcSpace).Sound :=
  ⟨hsound.shaped, fun _ => hsound.live hlive, fun h => (hstate h).elim⟩

theorem keeps_reparent (p : Slot) : Keeps Sane Inv (reparent p) := by
  refine keeps_update fun kernel => .same rfl rfl rfl fun q => ?_
  dsimp only
  split
  · exact ⟨rfl, rfl⟩
  · exact ⟨rfl, rfl⟩

theorem ends_kexit (hspaces : kernel.Spaces total extra none)
    (hlive : (kernel.proc p).state ≠ .UNUSED) (status : Int) : ends (kexit p status) kernel
      (fun _ => Kernel.Spaces total extra none) Sane := by
  have hsound := hspaces.sound p (by simp)
  have hleads : Leads Sane (kernel.Working total extra p (kernel.proc p).space)
      (fun _ => Kernel.Spaces total extra none) (kexit p status) :=
    leads_ite (leads_panic (sane_panic (by decide))) <|
    leads_bind (leads_forEach (keeps_closeFd p) _) fun _ =>
    leads_bind (keeps_inFs quiet_beginOp) fun _ =>
    leads_read_bind fun _ =>
    leads_bind (keeps_inFs (quiet_iputCwd sane_free _)) fun _ =>
    leads_bind keeps_endOp fun _ =>
    leads_bind (keeps_setProc p fun _ => ⟨rfl, rfl⟩) fun _ =>
    leads_bind (keeps_acquire _) fun _ =>
    leads_bind (keeps_reparent p) fun _ =>
    leads_bind (keeps_acquire _) fun _ =>
    leads_bind (fun _ hwork => hwork.set_state .ZOMBIE fun _ => ⟨rfl, rfl⟩) fun _ =>
    leads_bind (keeps_release _) fun _ => (keeps_release _).imp fun _ _ hwork =>
      hwork.finish (hsound.with_state hlive (by simp))
  exact hleads kernel (.start hspaces p)

variable {np : Slot}

theorem ends_forkFinish {sz : Nat} (hwork : kernel.Working total extra np space kernel₁)
    (hsz : (kernel₁.proc p).sz = sz) (hsound : ({ space with sz := sz } : ProcSpace).Sound)
    (hlive : space.state ≠ .UNUSED) : ends (forkFinish p np) kernel₁
      (fun _ => Kernel.Spaces total extra none) Sane := by
  unfold forkFinish
  rw [ends_bind, ends_read, hsz]
  refine ends_seq (hwork.set extra (fun space => { space with sz := sz })
    (fun _ => ⟨rfl, rfl⟩) fun _ => rfl) fun _ kernel₂ hwork₂ => ?_
  refine (?_ : Leads Sane (kernel.Working total extra np _)
    (fun _ => Kernel.Spaces total extra none) _) kernel₂ hwork₂
  exact leads_bind (keeps_forkTrapframe p np) fun _ =>
    leads_bind (leads_forEach (keeps_forkFd p np) _) fun _ =>
    leads_bind (keeps_forkCwd p np) fun _ =>
    leads_bind (keeps_setProc np fun _ => ⟨rfl, rfl⟩) fun _ =>
    leads_bind (keeps_release _) fun _ =>
    leads_bind (keeps_acquire _) fun _ =>
    leads_bind (keeps_setProc np fun _ => ⟨rfl, rfl⟩) fun _ =>
    leads_bind (keeps_release _) fun _ =>
    leads_bind (keeps_acquire _) fun _ =>
    leads_bind (fun _ hwork => ends_mono (hwork.set_state .RUNNABLE fun _ => ⟨rfl, rfl⟩)
      fun _ _ hwork => hwork.finish (hsound.with_state hlive (by simp))) fun _ =>
    leads_bind (keeps_release _) fun _ => leads_pure _

theorem Kernel.Working.free_release (hwork : kernel.Working total extra p space kernel₁)
    (hshaped : space.Shaped) {A : Type} {rest : Code Kernel A}
    (hrest : Keeps Sane (Kernel.Spaces total extra none) rest) : ends (do
      CkptKernel.freeproc p
      release (.proc p)
      rest) kernel₁ (fun _ => Kernel.Spaces total extra none)
      Sane := by
  refine ends_seq (hwork.freeproc hshaped) fun _ kernel₂ hwork₂ => ?_
  exact ends_seq (keeps_release _ _ hwork₂) fun _ kernel₃ hwork₃ =>
    hrest kernel₃ (hwork₃.finish ProcSpace.empty_sound)

theorem ends_kfork (hspaces : kernel.Spaces total extra none)
    (hlive : (kernel.proc p).state ≠ .UNUSED) : ends (kfork p) kernel
      (fun _ => Kernel.Spaces total extra none) Sane := by
  unfold kfork
  refine ends_seq (ends_allocproc hspaces) fun result kernel₁ hdone => ?_
  cases result with
  | none => exact hdone.spaces
  | some np =>
    obtain ⟨hunused, space, hnew, hwork₁⟩ := hdone
    obtain ⟨tf, new, htf, hpt, hspace⟩ := hnew.space
    have hne : p ≠ np := fun heq => hlive (heq ▸ hunused)
    have hparent := hwork₁.spaces.sound p fun h =>
      hne (Option.some.inj h).symm
    have hstate : (kernel₁.proc p).space.state ≠ .UNUSED := by
      rw [hwork₁.others p hne]
      exact hlive
    obtain ⟨old, hold⟩ := Option.ne_none_iff_exists'.mp (hparent.live hstate)
    obtain ⟨otf, _, holdspace⟩ := hparent.shaped old hold
    have hchild : (kernel₁.proc np).pagetable = some new := by
      rw [← hpt, ← hwork₁.self]
      rfl
    dsimp only
    rw [ends_bind, ends_read]
    rw [show (kernel₁.proc p).pagetable = some old from hold, hchild]
    dsimp only
    refine ends_seq (hwork₁.memory (ends_of_wp (wp_uvmcopyFrom holdspace hspace
      (Nat.zero_add _)))) ?_
    rintro ⟨copied, ok⟩ kernel₂ ⟨hcopied, hstep₂⟩
    have hwork₂ := hstep₂ _ (hcopied.count.moves extra)
    refine ends_seq (hwork₂.set extra (fun space => { space with
      pagetable := some copied }) (fun _ => ⟨rfl, rfl⟩) fun f => ?_)
      fun _ kernel₃ hwork₃ => ?_
    · simp only [ProcSpace.uses, hpt, ownedBy_some]
      push_cast
      ring
    rw [ends_ite]
    split
    next hok =>
      have hsz : (kernel₃.proc p).sz = (kernel₁.proc p).sz :=
        congrArg ProcSpace.sz ((hwork₃.others p hne).trans (hwork₁.others p hne).symm)
      refine ends_forkFinish hwork₃ hsz ⟨?_, by simp, fun h => (hnew.state h).elim⟩ hnew.state
      rintro pt ⟨⟩
      exact ⟨tf, htf, hcopied.done hok⟩
    next hok =>
      refine hwork₃.free_release ?_ (leads_pure none)
      rintro pt ⟨⟩
      refine ⟨tf, htf, ?_⟩
      dsimp only
      rw [hnew.sz]
      exact hcopied.failed (Bool.eq_false_iff.mpr hok)

/-! ### Restore -/

theorem ends_restoreBad (ip : InodeRef) (hshaped : space.Shaped) :
    Leads Sane (kernel.Working total extra np space)
      (fun _ => Kernel.Spaces total extra none) (restoreBad np ip) := by
  refine leads_bind (leads_forEach (keeps_closeFd np) _) fun _ =>
    leads_read_bind fun _ =>
    leads_bind (leads_whenSome (fun _ => leads_bind
      (keeps_inFs (quiet_iput sane_free)) fun _ => keeps_setProc np ?_) _)
      fun _ => leads_bind (keeps_acquire _) fun _ _ hwork =>
        Kernel.Working.free_release hwork hshaped (keeps_restoreEnd ip none)
  exact fun _ => ⟨rfl, rfl⟩

theorem keeps_restoreTrapframe (hdr : CkptHeader) : Keeps Sane Inv (restoreTrapframe np hdr) := by
  refine leads_read_bind fun kernel => ?_
  split
  · exact keeps_panic (by decide)
  · exact keeps_setPage _ _

/-- The last steps change no process. -/
theorem wlp_restoreLast {pid : Nat} (np : Slot) (ip : InodeRef) : wlp (do
      release (.proc np)
      restoreEnd ip (some pid)) kernel (fun result kernel' =>
        result = some pid ∧ kernel'.proc = kernel.proc) := by
  unfold release restoreEnd
  simp only [wlp_bind, wlp_read, wlp_ite, wlp_update, wlp_panic, wlp_inFs, wlp_pure]
  split
  · exact fun _ _ _ _ _ _ => ⟨trivial, rfl⟩
  · trivial

/-- The process that `restore_proc` leaves has the memory it had before the
last stage. -/
theorem ends_restoreFinish (hdr : CkptHeader) (ip : InodeRef) :
    Leads Sane (kernel.Working total extra np space) (fun result kernel' =>
      kernel.Working total extra np { space with state := .RUNNABLE } kernel' ∧
        result = some (kernel'.proc np).pid) (restoreFinish np hdr ip) := by
  refine leads_bind (keeps_acquire _) fun _ =>
    leads_bind (keeps_restoreTrapframe hdr) fun _ =>
    leads_bind (keeps_setProc np fun _ => ⟨rfl, rfl⟩) fun _ =>
    leads_bind (keeps_acquire _) fun _ =>
    leads_bind (keeps_setProc np fun _ => ⟨rfl, rfl⟩) fun _ =>
    leads_bind (keeps_release _) fun _ =>
    leads_bind (fun _ hwork => hwork.set_state .RUNNABLE fun _ => ⟨rfl, rfl⟩)
      fun _ kernel₁ hwork₁ => ?_
  rw [ends_bind, ends_read]
  refine ends_mono (ends_and (leads_bind (keeps_release _)
    (fun _ => keeps_restoreEnd ip _) _ hwork₁) (wlp_restoreLast np ip)) ?_
  rintro result kernel' ⟨⟨rfl, hproc⟩, hwork'⟩
  exact ⟨hwork', by rw [hproc]⟩

section

variable (hspaces : kernel.Spaces total extra busy) (hsole : total.Sole extra)
include hspaces hsole

/-- No frame is free twice. -/
theorem Kernel.Spaces.free_nodup : kernel.mem.free.Nodup := by
  refine List.nodup_iff_count_le_one.mpr fun f => ?_
  have hframes := hspaces.frames f
  have htotal := hsole.le_one f
  have hextra := hsole.nonneg f
  omega

/-- The new address space fits any size that a header asks for: there are fewer
frames than pages below the trapframe. -/
theorem Kernel.Spaces.free_le : kernel.mem.free.length ≤ NFRAME := by
  have hle := (hspaces.free_nodup hsole).length_le_card
  rwa [Fintype.card_fin] at hle

end

theorem ends_restoreInto {hdr : CkptHeader} (hpaired : total.counted → hdr.Paired)
    (ip : InodeRef) (hnew : space.New) (hsole : total.Sole extra)
    (hwork : kernel.Working total extra np space kernel₁) : ends (restoreInto np hdr ip) kernel₁
      (fun _ => Kernel.Spaces total extra none) Sane := by
  obtain ⟨tf, pt, htf, hpt, hspace⟩ := hnew.space
  have hpagetable : (kernel₁.proc np).pagetable = some pt := by
    rw [← hpt, ← hwork.self]
    rfl
  have hfree := hwork.spaces.free_le hsole
  have hzero : pagesOf 0 = 0 := by decide
  have hspace₀ : pt.Space (pagesOf 0) tf := hzero ▸ hspace
  unfold restoreInto
  rw [ends_bind, ends_read, hpagetable]
  dsimp only
  rw [ends_bind]
  refine ends_imp (hwork.memory (ends_uvmalloc hspace₀ hdr.sz restorePerm)) ?_ ?_
  · rintro ⟨grown, sz⟩ kernel₂ ⟨hgrown, hstep₂⟩
    have hwork₂ := hstep₂ _ (hgrown.count.moves extra)
    refine ends_seq (hwork₂.set extra (fun space => { space with
      pagetable := some grown }) (fun _ => ⟨rfl, rfl⟩) fun f => ?_)
      fun _ kernel₃ hwork₃ => ?_
    · simp only [ProcSpace.uses, hpt, ownedBy_some]
      push_cast
      ring
    rw [ends_ite]
    split
    next hfailed =>
      refine ends_restoreBad ip ?_ _ hwork₃
      rintro _ ⟨⟩
      refine ⟨tf, htf, ?_⟩
      dsimp only
      rw [hnew.sz]
      obtain ⟨_, hsame⟩ | ⟨hsz, hlarger, _⟩ := hgrown.ends
      · exact hsame
      · rw [← hsz, hfailed] at hlarger
        exact hlarger
    next hok =>
      obtain ⟨hfailed, _⟩ | ⟨hsz, hlarger, _⟩ := hgrown.ends
      · exact absurd hfailed hok
      rw [Nat.zero_max] at hlarger
      have hsound : ProcSpace.Sound ⟨space.state, hdr.sz, some grown, space.trapframe⟩ := by
        refine ⟨?_, by simp, fun h => (hnew.state h).elim⟩
        rintro _ ⟨⟩
        exact ⟨tf, htf, hlarger⟩
      have hle := hlarger.le
      have hTOP := TOP_lt
      refine ends_seq (hwork₃.set extra (fun space => { space with
        sz := hdr.sz }) (fun _ => ⟨rfl, rfl⟩) fun _ => rfl) fun _ kernel₄ hwork₄ => ?_
      refine ends_seq (keeps_release _ _ hwork₄) fun _ kernel₅ hwork₅ => ?_
      refine ends_seq (keeps_restoreAddrSpace grown ip _ 0 _ (by omega) _
        hwork₅) fun loaded kernel₆ hwork₆ => ?_
      have hend (ok : Bool) : Leads Sane (kernel.Working total extra np
          ⟨space.state, hdr.sz, some grown, space.trapframe⟩)
          (fun _ => Kernel.Spaces total extra none) (if ok = true
            then restoreFinish np hdr ip else restoreBad np ip) :=
        leads_ite ((ends_restoreFinish hdr ip).imp fun _ _ hdone =>
          hdone.1.finish (hsound.with_state hnew.state (by simp)))
          (ends_restoreBad ip hsound.shaped)
      split
      · exact leads_bind (keeps_restoreFiles (fun _ hwork _ =>
          hwork.spaces.pipe_of_free hsole) np hpaired) hend _ hwork₆
      · exact leads_bind (leads_pure false) hend _ hwork₆
  · rintro _ ⟨_, hmany⟩
    have hlt : NFRAME < TOP := by decide
    omega

/-- File system code, with what it returns. -/
theorem ends_inFs {A : Type} {code : Code Fs A} (hquiet : Quiet Sane code) (hinv : Inv kernel) :
    ends (inFs code) kernel (fun value kernel' =>
      (∃ fs, code kernel.fs = .ok (value, fs) ∧ kernel' = kernel.withFs fs) ∧ Inv kernel') Sane :=
  ends_and (keeps_inFs hquiet kernel hinv) (wlp_inFs.mpr fun _ fs hrun => ⟨fs, hrun, rfl⟩)

/-- Restore of a checkpoint whose pipes are paired, where descriptors are
counted. -/
theorem ends_restoreProc (hsole : total.Sole extra)
    (hspaces : kernel.Spaces total extra none) {cur : Slot} {path : Name}
    (hpaired : total.counted → ∀ hdr ∈ savedHeader kernel cur path, hdr.Paired) :
    ends (restoreProc cur path) kernel (fun _ => Kernel.Spaces total extra none) Sane := by
  unfold restoreProc
  refine ends_seq (ends_inFs quiet_beginOp hspaces) ?_
  rintro _ _ ⟨⟨fs₀, hbegin, rfl⟩, hspaces₀⟩
  have hbegun : kernel.withFs fs₀ = kernel.begun :=
    congrArg kernel.withFs (@wlp_beginOp kernel.fs (fun _ fs => fs = _) rfl _ _ hbegin)
  rw [hbegun] at hspaces₀ ⊢
  rw [ends_bind, ends_read]
  refine ends_seq (ends_inFs (quiet_namei sane_free sane_lock _ _) hspaces₀) ?_
  rintro found _ ⟨⟨fs₁, hnamei, rfl⟩, hspaces₁⟩
  cases found with
  | none =>
    exact keeps_end none _ hspaces₁
  | some ip =>
    dsimp only
    unfold restoreFile
    refine ends_seq (ends_inFs (quiet_ilock sane_lock ip) hspaces₁) ?_
    rintro _ _ ⟨⟨fs₂, hlock, rfl⟩, hspaces₂⟩
    refine ends_seq (ends_inFs (quiet_readi _ _ _) hspaces₂) ?_
    rintro image _ ⟨⟨fs₃, hread, rfl⟩, hspaces₃⟩
    rw [ends_ite]
    split
    · exact keeps_restoreEnd ip none _ hspaces₃
    next hvalid =>
    rw [not_or, not_not, not_not] at hvalid
    have hsaved : savedHeader kernel cur path = some (getHeader image.2) := by
      rw [savedHeader, show namei (kernel.proc cur).cwd path kernel.begun.fs = _ from hnamei]
      dsimp only
      rw [headerOf, bind_of_ok (show ilock ip fs₁ = _ from hlock),
        show readi ip (.kernel fun _ => 0) 0 HDRSZ fs₂ = _ from hread]
      exact if_pos hvalid
    refine ends_seq (ends_allocproc hspaces₃) fun result kernel₄ hdone => ?_
    cases result with
    | none => exact keeps_restoreEnd ip none kernel₄ hdone.spaces
    | some np =>
      obtain ⟨_, space, hnew, hwork⟩ := hdone
      exact ends_restoreInto (fun hcounted => hpaired hcounted _ hsaved) ip hnew hsole hwork

theorem Kernel.CanRun.live {p : Slot} (hrun : kernel.CanRun p) :
    (kernel.proc p).state ≠ .UNUSED := by
  intro hunused
  rcases hrun with hstate | hstate
  · rw [hunused] at hstate
    cases hstate
  · rw [hunused] at hstate
    cases hstate

/-- What restore reads has one end of each pipe in one of two descriptors, and
the other end in the other. -/
def RestoresPaired (kernel : Kernel) (p : Slot) : Call → Prop
  | .sysRestore path => ∀ hdr ∈ savedHeader kernel p path, hdr.Paired
  | _ => True

instance (kernel : Kernel) (p : Slot) (call : Call) : Decidable (RestoresPaired kernel p call) := by
  cases call <;> unfold RestoresPaired <;> infer_instance

/-- Every call keeps the address spaces in order. -/
theorem ends_call_spaces (hspaces : kernel.Spaces total extra none)
    (hsole : total.Sole extra) (hrun : kernel.CanRun p) {call : Call}
    (hpaired : total.counted → RestoresPaired kernel p call) : ends (call.code p) kernel
      (fun _ => Kernel.Spaces total extra none) Sane := by
  have hkeeps {A : Type} {code : Code Kernel A}
      (hcode : Keeps Sane (Kernel.Spaces total extra none) code) :
      ends (code >>= fun _ => pure ()) kernel
        (fun _ => Kernel.Spaces total extra none) Sane :=
    leads_bind hcode (fun _ => leads_pure ()) kernel hspaces
  cases call with
  | sysOpen path omode => exact hkeeps (keeps_sysOpen p path omode)
  | sysDup fd => exact hkeeps (keeps_sysDup p fd)
  | sysClose fd => exact hkeeps (keeps_sysClose p fd)
  | sysWrite fd buf n room => exact hkeeps (keeps_sysWrite p fd buf n room)
  | sysLink old new =>
    exact hkeeps (leads_read_bind fun _ => keeps_inOp (quiet_link sane_free sane_lock _ _ _))
  | sysUnlink path =>
    exact hkeeps (leads_read_bind fun _ => keeps_inOp (quiet_unlink sane_free sane_lock _ _))
  | sysMkdir path =>
    exact hkeeps (leads_read_bind fun _ => keeps_inOp (quiet_make sane_free sane_lock _ _ _ _ _))
  | sysMknod path major minor =>
    exact hkeeps (leads_read_bind fun _ => keeps_inOp (quiet_make sane_free sane_lock _ _ _ _ _))
  | sysChdir path => exact hkeeps (keeps_sysChdir p path)
  | sysFork => exact ends_bind.mpr (ends_kfork hspaces hrun.live)
  | sysExit status => exact ends_kexit hspaces hrun.live status
  | sysCheckpoint pid path stack =>
    exact hkeeps (leads_read_bind fun _ => leads_ite (leads_pure _)
      (leads_ite (leads_pure _) (keeps_checkpointProc p path stack)))
  | sysRestore path =>
    refine ends_bind.mpr ?_
    rw [sysRestore, ends_ite]
    split
    · exact hspaces
    · exact ends_restoreProc hsole hspaces hpaired

end Calls

end CkptKernel
