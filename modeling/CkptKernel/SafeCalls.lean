/-
Every system call other than restore keeps the types of the inodes behind open
files and current directories.
-/
import CkptKernel.DescriptorSafety

namespace CkptKernel

open ByteMem Code

/-- An entry of the file table as `filealloc` hands it out. -/
def File.taken (file : File) : File := { file with ref := 1 }

/-- An entry of the file table after `fileclose` is done with it. -/
def File.released (file : File) : File := { file with ref := 0, type := .none }

theorem wlp_filealloc {kernel : Kernel} : wlp filealloc kernel (fun found kernel' =>
      (found = none ∧ kernel' = kernel ∧ ∀ f, (kernel.file f).ref ≠ 0) ∨
        ∃ f, found = some f ∧ (kernel.file f).ref = 0 ∧
        kernel' = kernel.withFile f (kernel.file f).taken) := by
  unfold filealloc
  rw [wlp_bind, wlp_read]
  cases hfound : (List.finRange NFILE).find? (fun f =>
      decide ((kernel.file f).ref = 0)) with
  | none =>
    refine (wlp_pure _).mpr (Or.inl ⟨rfl, rfl, fun f hzero => ?_⟩)
    exact List.find?_eq_none.mp hfound f (List.mem_finRange f) (decide_eq_true hzero)
  | some f =>
    dsimp only
    rw [wlp_bind, wlp_setFile, wlp_pure]
    have hzero := List.find?_some hfound
    rw [decide_eq_true_eq] at hzero
    exact Or.inr ⟨f, rfl, hzero, rfl⟩

section SafeCalls

variable {live : Prop} {extra : InodeRef → Int} {kernel : Kernel}

/-- Code that leaves references alone. -/
theorem wlp_respects_safe {A : Type} {code : Code Kernel A} (hcode : Respects Kernel.SameRefs code)
    (hsafe : kernel.Safe live extra) {post : A → Kernel → Prop} (hpost : ∀ value kernel',
      kernel.SameRefs kernel' → kernel'.Safe live extra → post value kernel') :
    wlp code kernel post :=
  wlp_mono (hcode kernel) fun value kernel' hsame =>
    hpost value kernel' hsame (hsafe.sameRefs hsame)

/-- Code that keeps the tables safe, while the references that the call has for
itself change from `extra` to `extra'`. -/
abbrev SafeCode {A : Type} (live : Prop) (extra extra' : InodeRef → Int)
    (code : Code Kernel A) : Prop :=
  Triple (Kernel.Safe live extra) (Kernel.Safe live extra') code

theorem safe_respects {A : Type} {code : Code Kernel A} (hcode : Respects Kernel.SameRefs code) :
    SafeCode live extra extra code := fun _ hsafe =>
  wlp_respects_safe hcode hsafe fun _ _ _ hdone => hdone

variable {f : FileRef}

section

variable (hsafe : kernel.Safe live extra)
include hsafe

/-- An entry that names no inode may replace any other. -/
theorem Kernel.Safe.withPlain {file : File} (hclosed : file.ref = 0 → file.type = .none)
    (hplain : file.type = .none ∨ file.type = .pipe) :
    (kernel.withFile f file).Safe live extra := by
  have hnone := fun e => File.holds_of_closed hplain e
  refine hsafe.withFile hclosed ?_ ?_
  · intro hon
    have hpos := hnone file.ip
    rw [hon.holds, one_self] at hpos
    cases hpos
  · intro e
    rw [hnone e]
    have hnn := File.holds_nonneg (kernel.file f) e
    omega

/-- The fields that matter of an entry stay as they are. -/
theorem Kernel.Safe.withSame (f : FileRef) (file : File) (hopen : 0 < (kernel.file f).ref)
    (hpos : 0 < file.ref) (htype : file.type = (kernel.file f).type)
    (hip : file.ip = (kernel.file f).ip) (hwrite : file.writable = (kernel.file f).writable) :
    (kernel.withFile f file).Safe live extra := by
  have hholds : ∀ e, file.holds e = (kernel.file f).holds e := by
    intro e
    simp only [File.holds, htype, hip, hpos, hopen]
  refine hsafe.withFile (fun hzero => by omega) ?_ (fun e => by rw [hholds e])
  intro hon
  have hold : (kernel.file f).OnInode := ⟨hopen, htype ▸ hon.type⟩
  rw [hip]
  refine ⟨hsafe.inum _ (kernel.holds_file hold), ?_⟩
  have hfits := hsafe.file f hold
  rwa [File.Fits, htype, hwrite]

theorem wlp_filealloc_safe : wlp filealloc kernel (fun found kernel' => kernel'.Safe live extra ∧
      kernel'.fs = kernel.fs ∧ ∀ f, found = some f →
        0 < (kernel'.file f).ref ∧ (kernel'.file f).type = .none ∧
        ∀ g, g ≠ f → kernel'.file g = kernel.file g) := by
  refine wlp_mono wlp_filealloc ?_
  rintro found kernel' (⟨rfl, rfl, _⟩ | ⟨f, rfl, hzero, rfl⟩)
  · exact ⟨hsafe, rfl, fun f hsome => by cases hsome⟩
  have htype := hsafe.closed f hzero
  refine ⟨hsafe.withPlain (fun hone => by cases hone) (Or.inl htype), rfl, ?_⟩
  rintro _ ⟨⟩
  rw [withFile_self]
  exact ⟨Nat.one_pos, htype, fun g hne => withFile_of_ne hne _⟩

end

theorem respects_pipeclose (pi : Frame) (writable : Bool) :
    Respects Kernel.SameRefs (pipeclose pi writable) := by
  unfold pipeclose
  refine respects_read_bind fun kernel => ?_
  cases kernel.pipe pi with
  | none => exact respects_panic _
  | some pipe =>
    exact respects_ite (respects_bind (respects_setPipe _ _) fun _ =>
      respects_inMem _) (respects_setPipe _ _)

/-- `begin_op` and `end_op` touch the log only. -/
theorem wlp_beginOp_safe (hsafe : kernel.Safe live extra) {post : Unit → Kernel → Prop}
    (hpost : ∀ log, (kernel.withFs (kernel.fs.withLog log)).Safe live extra →
      post () (kernel.withFs (kernel.fs.withLog log))) : wlp (inFs beginOp) kernel post := by
  rw [wlp_inFs]
  exact wlp_beginOp (hpost _ (hsafe.withLog _))

theorem safe_beginOp : SafeCode live extra extra (inFs beginOp) :=
  fun _ hsafe => wlp_beginOp_safe hsafe fun _ hbegun => hbegun

theorem safe_endOp : SafeCode live extra extra (inFs endOp) := by
  intro kernel hsafe
  rw [wlp_inFs]
  exact wlp_endOp fun log => hsafe.withLog log

/-- The end of a call. -/
theorem safe_end {A : Type} (value : A) :
    SafeCode live extra extra (inFs endOp >>= fun _ => pure value) :=
  triple_bind safe_endOp fun _ => triple_pure value

variable {ip : InodeRef}

/-- Drop a reference that nobody holds any more. -/
theorem safe_iput (hnn : ∀ e, 0 ≤ extra e) :
    SafeCode live (extra + one ip) extra (inFs (iput ip)) := by
  intro kernel hsafe
  have hheld := hsafe.held
  rw [← add_assoc] at hheld
  rw [wlp_inFs]
  refine wlp_mono (wlp_of_ends (ends_iput_looks hsafe.ok hheld
    (hheld.pos (Kernel.Safe.nonneg hnn)))) ?_
  rintro _ fs' ⟨hput, _⟩
  have hnext := hsafe.evolves hput.evolves (Kernel.Safe.holds_le hnn)
  rwa [add_neg_cancel_right] at hnext

theorem safe_iunlockput (ip : InodeRef) : SafeCode live (one ip) 0 (inFs (iunlockput ip)) := by
  intro kernel hsafe
  rw [wlp_inFs]
  refine wlp_mono (wlp_of_ends (ends_iunlockput hsafe.ok hsafe.held)) ?_
  rintro _ fs' ⟨hput, _⟩
  have hnext := hsafe.evolves hput.evolves fun _ => Int.le_refl _
  rwa [add_neg_cancel] at hnext

theorem safe_fileclose (hnn : ∀ e, 0 ≤ extra e) (f : FileRef) :
    SafeCode live extra extra (fileclose f) := by
  intro kernel hsafe
  have hreleased : (kernel.withFile f (kernel.file f).released).Safe live
      extra := hsafe.withPlain (fun _ => rfl) (Or.inl rfl)
  unfold fileclose
  rw [wlp_bind, wlp_read, wlp_ite]
  split
  · exact wlp_panic.mpr trivial
  rename_i href
  rw [wlp_ite]
  split
  next hmany =>
    rw [wlp_setFile]
    exact hsafe.withSame f _ (by omega) (show 0 < (kernel.file f).ref - 1 by omega) rfl rfl rfl
  rename_i hlast
  rw [wlp_bind, wlp_setFile]
  change wlp _ (kernel.withFile f (kernel.file f).released) _
  have hput : (kernel.file f).OnInode →
      wlp (inFs beginOp >>= fun _ => inFs (iput (kernel.file f).ip) >>= fun _ =>
        inFs endOp) (kernel.withFile f (kernel.file f).released)
        (fun _ kernel' => kernel'.Safe live extra) := by
    intro hon
    -- the reference of the closed file is one that the kernel still counts
    have hdrop : (kernel.withFile f (kernel.file f).released).Safe live
        (extra + one (kernel.file f).ip) := by
      refine hsafe.withFile (fun _ => rfl) ?_ ?_
      · intro hclosed
        exact absurd hclosed.ref (Nat.lt_irrefl 0)
      · intro e
        rw [File.holds_of_closed (Or.inl rfl), hon.holds]
        simp
    exact triple_bind safe_beginOp (fun _ => triple_bind (safe_iput hnn)
      fun _ => safe_endOp) _ hdrop
  have hpos : 0 < (kernel.file f).ref := by omega
  cases htype : (kernel.file f).type with
  | none => exact (wlp_pure _).mpr hreleased
  | pipe => exact safe_respects (respects_pipeclose _ _) _ hreleased
  | inode => exact hput ⟨hpos, Or.inl htype⟩
  | device => exact hput ⟨hpos, Or.inr htype⟩

theorem safe_filedup (f : FileRef) : SafeCode live extra extra (filedup f) := by
  intro kernel hsafe
  unfold filedup
  rw [wlp_bind, wlp_read, wlp_ite]
  split
  · exact wlp_panic.mpr trivial
  next href =>
    rw [wlp_setFile]
    exact hsafe.withSame f _ (by omega) (Nat.succ_pos _) rfl rfl rfl

theorem respects_argfd (p : Slot) (fd : Nat) : Respects Kernel.SameRefs (argfd p fd) := by
  unfold argfd
  refine respects_read_bind fun kernel => ?_
  split
  · exact respects_pure _
  · exact respects_pure _

theorem safe_setOfile (p : Slot) (i : Fin NOFILE) (f : Option FileRef) :
    SafeCode live extra extra (setOfile p i f) :=
  fun _ hsafe => wlp_setOfile.mpr (hsafe.withOfile p i f)

/-- A descriptor that was free. -/
theorem wlp_fdalloc (p : Slot) (f : FileRef) : wlp (fdalloc p f) kernel (fun found kernel' =>
    match found with
    | none => kernel' = kernel
    | some fd => (kernel.proc p).ofile fd = none ∧
        kernel' = kernel.withOfile p fd (some f)) := by
  unfold fdalloc
  rw [wlp_bind, wlp_read]
  cases hfound : (List.finRange NOFILE).find? (fun fd =>
      decide ((kernel.proc p).ofile fd = none)) with
  | none => exact (wlp_pure _).mpr rfl
  | some fd =>
    dsimp only
    rw [wlp_bind, wlp_setOfile, wlp_pure]
    have hfree := List.find?_some hfound
    exact ⟨of_decide_eq_true hfree, rfl⟩

theorem safe_sysDup (p : Slot) (fd : Nat) : SafeCode live extra extra (sysDup p fd) := by
  refine triple_bind (safe_respects (respects_argfd p fd)) fun arg => ?_
  cases arg with
  | none => exact triple_pure _
  | some arg =>
    intro kernel hsafe
    refine wlp_seq (wlp_fdalloc p arg.2) ?_
    rintro (_ | new) kernel' hdone
    · cases hdone
      exact (wlp_pure _).mpr hsafe
    · obtain ⟨_, rfl⟩ := hdone
      exact triple_bind (safe_filedup arg.2) (fun _ => triple_pure _) _ (hsafe.withOfile p new _)

theorem safe_sysClose (hnn : ∀ e, 0 ≤ extra e) (p : Slot) (fd : Nat) :
    SafeCode live extra extra (sysClose p fd) := by
  refine triple_bind (safe_respects (respects_argfd p fd)) fun arg => ?_
  cases arg with
  | none => exact triple_pure _
  | some arg =>
    exact triple_bind (safe_setOfile p arg.1 none)
      fun _ => triple_bind (safe_fileclose hnn arg.2) fun _ => triple_pure _

theorem Kernel.Safe.cwdHeld (hsafe : kernel.Safe live 0) (p : Slot) :
    kernel.fs.CwdHeld kernel.holds (kernel.proc p).cwd := fun ip hcwd =>
  ⟨kernel.holds_cwd hcwd, hsafe.inum ip (kernel.holds_cwd hcwd)⟩

theorem Kernel.Safe.heldHolds (hsafe : kernel.Safe live 0) :
    kernel.fs.Held kernel.holds := hsafe.fsOk.held

/-- The calls on names. -/
theorem wlp_inOp_safe {A : Type} (hsafe : kernel.Safe live 0) {code : Code Fs A}
    (hcode : ∀ fs : Fs, fs.Ok → fs.Held kernel.holds →
      (∀ p, fs.CwdHeld kernel.holds (kernel.proc p).cwd) →
      wlp code fs (fun _ fs' => Fs.Evolves kernel.holds 0 fs fs')) :
    wlp (inOp code) kernel (fun _ kernel' => kernel'.Safe live 0) := by
  unfold inOp
  rw [wlp_bind]
  refine wlp_beginOp_safe hsafe fun log hbegun => ?_
  rw [wlp_bind, wlp_inFs]
  refine wlp_mono (hcode _ hbegun.ok hbegun.heldHolds hbegun.cwdHeld) ?_
  exact fun _ fs' hev => safe_end _ _ (hbegun.evolves_same hev)

theorem safe_sysLink (p : Slot) (old new : Name) : SafeCode live 0 0 (sysLink p old new) := by
  intro kernel hsafe
  rw [sysLink, wlp_bind, wlp_read]
  exact wlp_inOp_safe hsafe fun _ hok hheld hcwd =>
    wlp_of_ends (ends_link hok kernel.holds_nonneg hheld (hcwd p) old new)

theorem safe_sysUnlink (p : Slot) (path : Name) : SafeCode live 0 0 (sysUnlink p path) := by
  intro kernel hsafe
  rw [sysUnlink, wlp_bind, wlp_read]
  exact wlp_inOp_safe hsafe fun _ hok hheld hcwd =>
    wlp_of_ends (ends_unlink hok kernel.holds_nonneg hheld (hcwd p) path)

theorem wlp_make_safe (hsafe : kernel.Safe live 0) (p : Slot) (path : Name)
    (type major minor : UInt16) : wlp (inOp (make (kernel.proc p).cwd path type major minor)) kernel
      (fun _ kernel' => kernel'.Safe live 0) :=
  wlp_inOp_safe hsafe fun _ hok hheld hcwd =>
    wlp_of_ends (ends_make hok kernel.holds_nonneg hheld (hcwd p) path type major minor)

/-- The lookup of a call that goes on with the inode. -/
theorem wlp_lookup_safe (hsafe : kernel.Safe live 0) (p : Slot) (path : Name) :
    wlp (inFs (namei (kernel.proc p).cwd path)) kernel (fun found kernel' =>
      kernel.OnlyFs kernel' ∧ ((found = none ∧ kernel'.Safe live 0) ∨ ∃ ip, found = some ip ∧
        kernel'.Safe live (one ip) ∧ (kernel'.fs.inode ip).inum < kernel'.fs.sb.ninodes)) := by
  rw [wlp_inFs]
  refine wlp_mono (wlp_of_ends (ends_namei hsafe.ok kernel.holds_nonneg hsafe.heldHolds
    (hsafe.cwdHeld p) path)) ?_
  rintro found fs' (⟨rfl, hmiss⟩ | ⟨ip, rfl, hnamed⟩)
  · exact ⟨rfl, Or.inl ⟨rfl, hsafe.evolves_same hmiss.looks.evolves⟩⟩
  · refine ⟨rfl, Or.inr ⟨ip, rfl, hsafe.evolves_zero hnamed.looks.evolves, ?_⟩⟩
    change _ < fs'.sb.ninodes
    rw [hnamed.looks.sb]
    exact hnamed.inum

/-- Lock an inode that somebody holds. -/
theorem wlp_ilock_safe (hsafe : kernel.Safe live extra) (hnn : ∀ e, 0 ≤ extra e)
    (hinum : (kernel.fs.inode ip).inum < kernel.fs.sb.ninodes) :
    wlp (inFs (ilock ip)) kernel (fun _ kernel' => kernel'.Safe live extra ∧
      kernel.OnlyFs kernel' ∧ kernel'.fs.Loaded ip ∧ kernel'.fs.disk = kernel.fs.disk ∧
      ∀ e, kernel.fs.SameInode kernel'.fs e) := by
  rw [wlp_inFs]
  refine wlp_mono (wlp_ilock hsafe.ok ip) ?_
  rintro _ fs' ⟨rfl, hpos, _, htype⟩
  have hok := hsafe.ok.lockInode hpos hinum htype
  have hself : (kernel.fs.lockInode ip).inode ip = { kernel.fs.inode ip with
      locked := true, valid := true, copy := kernel.fs.dinode (kernel.fs.inode ip).inum } :=
    withInode_self _ _ _
  have hnext := hsafe.evolves (looks_lockInode hok
    (kernel.holds + extra)).evolves (Kernel.Safe.holds_le hnn)
  rw [add_zero] at hnext
  refine ⟨hnext, rfl, ⟨by rw [withFs_fs, hself]; exact hpos,
    by rw [withFs_fs, hself]⟩, rfl, fun e => ?_⟩
  have hnum : ((kernel.fs.lockInode ip).inode e).inum = (kernel.fs.inode e).inum := by
    by_cases heq : e = ip
    · rw [heq, hself]
    · rw [Fs.lockInode, withInode_of_ne _ _ _ heq]
  refine ⟨rfl, hnum, fun _ _ => ?_⟩
  rw [withFs_fs, Fs.typeOf, hnum]
  rfl

theorem wlp_iunlock_safe (hsafe : kernel.Safe live extra) (hnn : ∀ e, 0 ≤ extra e) (ip : InodeRef) :
    wlp (inFs (iunlock ip)) kernel (fun _ kernel' =>
      kernel'.Safe live extra ∧ kernel.OnlyFs kernel' ∧ ∀ e, kernel.fs.SameInode kernel'.fs e) := by
  rw [wlp_inFs]
  refine wlp_mono (wlp_iunlock ip) ?_
  rintro _ fs' ⟨rfl, hpos, _⟩
  have hnext := hsafe.evolves (looks_unlockInode (hsafe.ok.unlockInode hpos)
    (kernel.holds + extra)).evolves (Kernel.Safe.holds_le hnn)
  rw [add_zero] at hnext
  refine ⟨hnext, rfl, fun e => ?_⟩
  have hnum : ((kernel.fs.unlockInode ip).inode e).inum = (kernel.fs.inode e).inum := by
    by_cases heq : e = ip
    · rw [heq, Fs.unlockInode, withInode_self]
    · rw [Fs.unlockInode, withInode_of_ne _ _ _ heq]
  refine ⟨rfl, hnum, fun _ _ => ?_⟩
  rw [withFs_fs, Fs.typeOf, hnum]
  rfl

theorem Proc.holds_some {proc : Proc} (hcwd : proc.cwd = some ip) : proc.holds = one ip := by
  funext e
  unfold Proc.holds one
  rw [hcwd]
  simp [eq_comm]

/-- Replace the current directory of a process by a reference that the call
holds. -/
theorem Kernel.Safe.withCwd (hsafe : kernel.Safe live (extra + one ip)) (p : Slot) (proc : Proc)
    (hcwd : proc.cwd = some ip) (hinum : (kernel.fs.inode ip).inum < kernel.fs.sb.ninodes)
    (hdir : CwdFits live (kernel.fs.typeOf ip)) : (kernel.withProc p proc).Safe live extra := by
  refine hsafe.withProc ?_ ?_
  · intro ip' heq
    rw [hcwd] at heq
    cases heq
    exact ⟨hinum, hdir⟩
  · intro e
    have hold := Proc.holds_nonneg (kernel.proc p) e
    rw [Proc.holds_some hcwd, Pi.add_apply]
    omega

/-- A process without a current directory. -/
theorem Kernel.Safe.withoutCwd (hsafe : kernel.Safe live extra) {p : Slot}
    {proc : Proc} (hcwd : proc.cwd = none) :
    (kernel.withProc p proc).Safe live (extra + (kernel.proc p).holds) := by
  refine hsafe.withProc (fun ip heq => by rw [hcwd] at heq; cases heq) ?_
  intro e
  have hzero : proc.holds e = 0 := if_neg (by rw [hcwd]; simp)
  rw [hzero, Pi.add_apply, Int.add_zero]

/-- Give up the current directory of a process, as `chdir` and `exit` do. -/
theorem wlp_iputCwd_safe (hsafe : kernel.Safe live extra) (hnn : ∀ e, 0 ≤ extra e) (p : Slot)
    (change : Proc → Proc) (hchange : ∀ proc, (change proc).cwd = none) :
    wlp (inFs (iputCwd (kernel.proc p).cwd)) kernel (fun _ kernel' =>
      kernel.OnlyFs kernel' ∧ (kernel'.withProc p (change (kernel.proc p))).Safe live extra ∧
      ∀ e, 0 < extra e → kernel.fs.SameInode kernel'.fs e) := by
  unfold iputCwd
  cases hcwd : (kernel.proc p).cwd with
  | none => exact wlp_within.mpr (wlp_panic.mpr trivial)
  | some cwd =>
    have hfree := @Kernel.Safe.withoutCwd live extra kernel hsafe p
      (change (kernel.proc p)) (hchange _)
    rw [Proc.holds_some hcwd] at hfree
    have hheld := hfree.held
    rw [← add_assoc] at hheld
    rw [wlp_inFs]
    refine wlp_mono (wlp_of_ends (ends_iput_looks hsafe.ok hheld
      (hheld.pos (Kernel.Safe.nonneg hnn)))) ?_
    rintro _ fs' ⟨hput, _⟩
    have hnext := hfree.evolves hput.evolves (Kernel.Safe.holds_le hnn)
    rw [add_neg_cancel_right] at hnext
    refine ⟨rfl, hnext, fun e he => hput.evolves.sameInode ?_⟩
    have hle := Kernel.holds_nonneg (kernel.withProc p (change (kernel.proc p))) e
    simp only [Pi.add_apply]
    omega

/-- The type of a loaded inode. -/
theorem Fs.Ok.typeOf {fs : Fs} (hok : fs.Ok)
    (hloaded : fs.Loaded ip) : fs.typeOf ip = (fs.inode ip).copy.type := by
  rw [Fs.typeOf, hloaded.sync hok]

theorem safe_sysChdir (p : Slot) (path : Name) : SafeCode live 0 0 (sysChdir p path) := by
  intro kernel hsafe
  have hone : ∀ ip e : InodeRef, 0 ≤ one ip e := one_nonneg
  unfold sysChdir
  rw [wlp_bind]
  refine wlp_beginOp_safe hsafe fun log hbegun => ?_
  rw [wlp_bind, wlp_read]
  refine wlp_seq (wlp_lookup_safe hbegun p path) ?_
  rintro found kernel₁ ⟨_, ⟨rfl, hsafe₁⟩ | ⟨ip, rfl, hsafe₁, hinum₁⟩⟩
  · exact safe_end _ _ hsafe₁
  dsimp only
  refine wlp_seq (wlp_ilock_safe hsafe₁ (hone ip) hinum₁) ?_
  rintro _ kernel₂ ⟨hsafe₂, _, hloaded, _, hsame₂⟩
  rw [wlp_bind, wlp_read, wlp_ite]
  split
  · exact triple_bind (safe_iunlockput ip) (fun _ => safe_end _) _ hsafe₂
  rename_i hdir
  rw [not_not, ← hsafe₂.ok.typeOf hloaded] at hdir
  have hinum₂ := (hsame₂ ip).inRange hinum₁
  refine wlp_seq (wlp_iunlock_safe hsafe₂ (hone ip) ip) ?_
  rintro _ kernel₃ ⟨hsafe₃, honly₃, hsame₃⟩
  have hproc : kernel₂.proc p = kernel₃.proc p := by
    rw [honly₃]
    rfl
  rw [wlp_bind, hproc]
  refine wlp_mono (wlp_iputCwd_safe hsafe₃ (hone ip) p
    (fun proc => { proc with cwd := none }) fun _ => rfl) ?_
  rintro _ kernel₄ ⟨honly₄, hsafe₄, hheld⟩
  have hsame₄ := (hsame₃ ip).trans (hheld ip (by rw [one_self]; decide))
  have hdir₄ : kernel₄.fs.typeOf ip = T_DIR := by
    rw [hsame₄.type hinum₂ (by rw [hdir]; decide), hdir]
  rw [wlp_bind, wlp_inFs]
  refine wlp_endOp fun log => ?_
  rw [wlp_bind, wlp_setProc, wlp_pure]
  rw [← zero_add (one ip)] at hsafe₄
  have hfinal := (hsafe₄.withLog log).withCwd p
    ((fun proc => { proc with cwd := some ip }) (kernel₄.proc p)) rfl
    (hsame₄.inRange hinum₂) (fun _ => hdir₄)
  rwa [withProc_withFs, withProc_withProc] at hfinal

theorem safe_openFail (ip : InodeRef) : SafeCode live (one ip) 0 (openFail ip) :=
  triple_bind (safe_iunlockput ip) fun _ => safe_end none

theorem opened_type (file : File) (ip : InodeRef) (dn : Dinode)
    (omode : UInt32) : (file.opened ip dn omode).type =
      if dn.type = T_DEVICE then .device else .inode := by
  unfold File.opened
  split <;> rfl

theorem opened_ref (file : File) (ip : InodeRef) (dn : Dinode)
    (omode : UInt32) : (file.opened ip dn omode).ref = file.ref := by
  unfold File.opened
  split <;> rfl

variable {omode : UInt32}

theorem wlp_openFile_safe (hsafe : kernel.Safe live (one ip)) (hloaded : kernel.fs.Loaded ip)
    (hopen : 0 < (kernel.file f).ref) (fd : Fin NOFILE)
    (hdir : (kernel.fs.inode ip).copy.type = T_DIR → omode = O_RDONLY) :
    wlp (openFile f fd ip omode) kernel (fun _ kernel' => kernel'.Safe live 0) := by
  have htype := hloaded.type hsafe.ok
  have hon : ((kernel.file f).opened ip (kernel.fs.inode ip).copy omode).OnInode := by
    refine ⟨by rw [opened_ref]; exact hopen, ?_⟩
    rw [opened_type]
    split
    · exact Or.inr rfl
    · exact Or.inl rfl
  have hip : ((kernel.file f).opened ip (kernel.fs.inode ip).copy omode).ip = ip := rfl
  have hsafe₁ : (kernel.withFile f ((kernel.file f).opened ip
      (kernel.fs.inode ip).copy omode)).Safe live 0 := by
    refine hsafe.withFile ?_ (fun _ => ⟨?_, ?_⟩) ?_
    · rw [opened_ref]
      omega
    · rw [hip]
      exact hloaded.inum hsafe.ok
    · rw [hip, hsafe.ok.typeOf hloaded]
      refine ⟨fun _ hwrite => ⟨htype, fun heq => hwrite ?_⟩, fun _ => htype⟩
      unfold File.opened
      rw [hdir heq]
      rfl
    · intro e
      have hold := File.holds_nonneg (kernel.file f) e
      rw [hon.holds, hip, Pi.zero_apply]
      omega
  -- the rest once the file may have been truncated
  have hrest : SafeCode live 0 0 (inFs (iunlock ip) >>= fun _ =>
      inFs endOp >>= fun _ => pure (some fd)) := by
    intro kernel₂ hsafe₂
    refine wlp_seq (wlp_iunlock_safe hsafe₂ (fun _ => Int.le_refl _) ip) ?_
    exact fun _ kernel₃ hsafe₃ => safe_end _ _ hsafe₃.1
  unfold openFile
  rw [wlp_bind, wlp_read, wlp_bind, wlp_setFile, wlp_bind, Code.when, wlp_ite]
  split
  · rw [wlp_inFs]
    refine wlp_mono (wlp_of_ends (ends_itrunc (hsafe.ok.working hloaded.ref hloaded.valid))) ?_
    intro _ fs' htruncated
    obtain ⟨hev, _⟩ := htruncated.evolves hsafe.ok hloaded (kernel.withFile f
      ((kernel.file f).opened ip (kernel.fs.inode ip).copy omode)).holds
    exact hrest _ (hsafe₁.evolves_same hev)
  · exact (wlp_pure _).mpr (hrest _ hsafe₁)

theorem wlp_openWith_safe (hsafe : kernel.Safe live (one ip)) (hloaded : kernel.fs.Loaded ip)
    (p : Slot) (hdir : (kernel.fs.inode ip).copy.type = T_DIR → omode = O_RDONLY) :
    wlp (openWith p ip omode) kernel (fun _ kernel' => kernel'.Safe live 0) := by
  unfold openWith
  rw [wlp_bind, wlp_read, wlp_ite]
  split
  · exact safe_openFail ip _ hsafe
  refine wlp_seq (wlp_filealloc_safe hsafe) ?_
  rintro found kernel₁ ⟨hsafe₁, hfs₁, hfound⟩
  cases found with
  | none => exact safe_openFail ip _ hsafe₁
  | some f =>
    obtain ⟨hopen, _, _⟩ := hfound f rfl
    dsimp only
    refine wlp_seq (wlp_fdalloc p f) ?_
    rintro (_ | fd) kernel₂ hdone
    · cases hdone
      exact triple_bind (safe_fileclose (one_nonneg ip) f) (fun _ => safe_openFail ip) _ hsafe₁
    · obtain ⟨_, rfl⟩ := hdone
      exact wlp_openFile_safe (hsafe₁.withOfile p fd _) (by rwa [← hfs₁] at hloaded) hopen fd
        (by rwa [← hfs₁] at hdir)

theorem safe_sysOpen (p : Slot) (path : Name) (omode : UInt32) :
    SafeCode live 0 0 (sysOpen p path omode) := by
  intro kernel hsafe
  unfold sysOpen
  rw [wlp_bind]
  refine wlp_beginOp_safe hsafe fun log hbegun => ?_
  rw [wlp_bind, wlp_read, wlp_bind, wlp_inFs]
  refine wlp_mono (wlp_of_ends (ends_openInode hbegun.ok (Kernel.holds_nonneg _)
    hbegun.heldHolds (hbegun.cwdHeld p) path omode)) ?_
  rintro found fs' (⟨rfl, hev⟩ | ⟨ip, rfl, hopened⟩)
  · exact safe_end _ _ (hbegun.evolves_same hev)
  · exact wlp_openWith_safe (hbegun.evolves_zero hopened.evolves) hopened.loaded p hopened.dir

/-- Files through which inodes can be written. -/
structure File.Writes (file : File) : Prop where
  ref : 0 < file.ref
  type : file.type = .inode
  writable : file.writable ≠ 0

/-- A write through a file, in its transaction. -/
theorem wlp_writeThrough_safe (hsafe : kernel.Safe live 0) (hwrites : (kernel.file f).Writes)
    (hloaded : kernel.fs.Loaded (kernel.file f).ip) (buf : Buffer) (off : Nat) {n : Nat}
    (hn : n < 2 ^ 32) : wlp (inFs (writei (kernel.file f).ip buf off n)) kernel (fun _ kernel' =>
      kernel'.Safe live 0 ∧ kernel.OnlyFs kernel') := by
  have hfits := hsafe.file f ⟨hwrites.ref, Or.inl hwrites.type⟩
  have hdir : (kernel.fs.inode (kernel.file f).ip).copy.type ≠ T_DIR := by
    rw [← hsafe.ok.typeOf hloaded]
    exact (hfits.1 hwrites.type hwrites.writable).2
  rw [wlp_inFs]
  refine wlp_mono (wlp_writei (hsafe.ok.working hloaded.ref hloaded.valid) buf off hn) ?_
  rintro result fs' (⟨_, rfl⟩ | ⟨t, _, hwrote⟩)
  · exact ⟨hsafe, rfl⟩
  · exact ⟨hsafe.evolves_same (hwrote.evolves hsafe.ok hloaded
      (fun heq => (hdir heq).elim) kernel.holds), rfl⟩

theorem wlp_filewriteFrom_safe (hsafe : kernel.Safe live 0)
    (hwrites : (kernel.file f).Writes) (buf : Nat → Buffer) (n fuel i : Nat) :
    wlp (filewriteFrom f buf n fuel i) kernel (fun _ kernel' => kernel'.Safe live 0) := by
  have hnn : ∀ e : InodeRef, 0 ≤ (0 : InodeRef → Int) e :=
    fun _ => Int.le_refl _
  induction fuel generalizing kernel i with
  | zero => exact (wlp_pure _).mpr hsafe
  | succ fuel ih =>
    unfold filewriteFrom
    rw [wlp_ite]
    split
    · rw [wlp_bind]
      refine wlp_beginOp_safe hsafe fun log hbegun => ?_
      rw [wlp_bind, wlp_read, wlp_bind]
      have hinum := hbegun.inum _ (Kernel.holds_file _ (f := f) ⟨hwrites.ref, Or.inl hwrites.type⟩)
      refine wlp_mono (wlp_ilock_safe hbegun hnn hinum) ?_
      rintro _ kernel₁ ⟨hsafe₁, honly₁, hloaded, _, _⟩
      have hfile₁ : kernel₁.file = kernel.file := by
        rw [honly₁]
        rfl
      rw [withFs_file, ← hfile₁] at hloaded ⊢
      rw [← hfile₁] at hwrites
      refine wlp_seq (wlp_writeThrough_safe hsafe₁ hwrites hloaded (buf i) _ ?_) ?_
      · simp only [writeMax, MAXOPBLOCKS, BSIZE]
        omega
      rintro r kernel₂ ⟨hsafe₂, honly₂⟩
      have hfile₂ : kernel₂.file = kernel₁.file := by
        rw [honly₂]
        rfl
      rw [← hfile₂] at hwrites ⊢
      rw [wlp_bind, wlp_setFile]
      have hsafe₃ := hsafe₂.withSame f { kernel₂.file f with
        off := (kernel₂.file f).off + UInt32.ofNat (r.getD 0) }
        hwrites.ref hwrites.ref rfl rfl rfl
      refine wlp_seq (wlp_iunlock_safe hsafe₃ hnn _) ?_
      rintro _ kernel₄ ⟨hsafe₄, honly₄, _⟩
      have hfile₄ : (kernel₄.file f).Writes := by
        rw [honly₄, withFs_file, withFile_self]
        exact ⟨hwrites.ref, hwrites.type, hwrites.writable⟩
      rw [wlp_bind, wlp_inFs]
      refine wlp_endOp fun log' => ?_
      rw [wlp_ite]
      split
      · exact (wlp_pure _).mpr (hsafe₄.withLog log')
      · exact ih (hsafe₄.withLog log') hfile₄ _
    · exact (wlp_pure _).mpr hsafe

theorem respects_pipewriteFrom (p : Slot) (pi : Frame) (buf : Nat → Buffer) (room left i : Nat) :
    Respects Kernel.SameRefs (pipewriteFrom p pi buf room left i) := by
  induction left generalizing i with
  | zero => exact respects_pure _
  | succ left ih =>
    exact respects_read_bind fun _ => respects_ite (respects_pure _)
      (respects_ite (fun _ => wlp_stop.mpr trivial) (respects_ite (respects_pure _) (ih _)))

theorem safe_sysWrite (p : Slot) (fd : Nat) (buf : Nat → Buffer) (n : Int) (room : Nat) :
    SafeCode live 0 0 (sysWrite p fd buf n room) := by
  refine triple_bind (safe_respects (respects_argfd p fd)) fun arg => ?_
  cases arg with
  | none => exact triple_pure _
  | some arg =>
    intro kernel₁ hsafe₁
    unfold filewrite
    rw [wlp_bind, wlp_read, wlp_ite]
    split
    · exact (wlp_pure _).mpr hsafe₁
    rename_i hwrite
    cases htype : (kernel₁.file arg.2).type with
    | none => exact wlp_panic.mpr trivial
    | pipe => exact safe_respects (respects_pipewriteFrom _ _ _ _ _ _) _ hsafe₁
    | device => exact triple_ite (triple_pure _) (triple_pure _) _ hsafe₁
    | inode =>
      have href : 0 < (kernel₁.file arg.2).ref := by
        by_contra hzero
        have hnone := hsafe₁.closed arg.2 (by omega)
        rw [htype] at hnone
        cases hnone
      dsimp only
      refine wlp_seq (wlp_filewriteFrom_safe hsafe₁
        ⟨href, htype, hwrite⟩ buf _ _ 0) fun _ _ hdone => ?_
      exact (wlp_pure _).mpr hdone

theorem safe_closeFd (hnn : ∀ e, 0 ≤ extra e) (p : Slot) (i : Fin NOFILE) :
    SafeCode live extra extra (closeFd p i) := by
  refine triple_read_bind fun kernel => ?_
  cases (kernel.proc p).ofile i with
  | none => exact triple_pure _
  | some f => exact triple_bind (safe_fileclose hnn f) fun _ =>
    safe_setOfile p i none

theorem safe_closeFds (hnn : ∀ e, 0 ≤ extra e) (p : Slot) :
    SafeCode live extra extra (forEach (closeFd p) (List.finRange NOFILE)) :=
  triple_forEach (fun i => safe_closeFd hnn p i) _

theorem respects_reparent (p : Slot) : Respects Kernel.SameRefs (reparent p) := by
  refine respects_update fun kernel => ⟨rfl, rfl, fun q => ?_, fun q => ?_⟩
  · dsimp only
    split <;> rfl
  · dsimp only
    split <;> rfl

theorem safe_kexit (p : Slot) (status : Int) : SafeCode live 0 0 (kexit p status) := by
  have hnn : ∀ e : InodeRef, 0 ≤ (0 : InodeRef → Int) e :=
    fun _ => Int.le_refl _
  refine triple_ite (triple_panic _) (triple_bind (safe_closeFds hnn p)
    fun _ => triple_bind safe_beginOp fun _ => ?_)
  intro kernel₁ hsafe₁
  rw [wlp_bind, wlp_read]
  refine wlp_seq (wlp_iputCwd_safe hsafe₁ hnn p
    (fun proc => { proc with cwd := none }) fun _ => rfl) ?_
  rintro _ kernel₂ ⟨honly, hsafe₂, _⟩
  have hproc : kernel₂.proc p = kernel₁.proc p := by
    rw [honly]
    rfl
  rw [wlp_bind, wlp_inFs]
  refine wlp_endOp fun log' => ?_
  rw [wlp_bind, wlp_setProc, withFs_proc, hproc]
  have hsafe₃ := hsafe₂.withLog log'
  rw [withProc_withFs] at hsafe₃
  refine wlp_respects_safe ?_ hsafe₃ fun _ _ _ hdone => hdone
  exact respects_bind (respects_acquire _) fun _ =>
    respects_bind (respects_reparent p) fun _ =>
      respects_bind (respects_acquire _) fun _ =>
        respects_bind (respects_setProc p fun _ => ⟨rfl, rfl⟩) fun _ =>
          respects_bind (respects_release _) fun _ => respects_release _

theorem safe_forkFd (p np : Slot) (i : Fin NOFILE) : SafeCode live extra extra (forkFd p np i) := by
  refine triple_read_bind fun kernel => ?_
  cases (kernel.proc p).ofile i with
  | none => exact triple_pure _
  | some f => exact triple_bind (safe_filedup f) fun _ =>
    safe_setOfile np i (some f)

theorem safe_forkCwd (p np : Slot) : SafeCode live 0 0 (forkCwd p np) := by
  intro kernel hsafe
  unfold forkCwd
  rw [wlp_bind, wlp_read]
  cases hcwd : (kernel.proc p).cwd with
  | none => exact wlp_panic.mpr trivial
  | some cwd =>
    have hheld := hsafe.cwdHeld p cwd hcwd
    have hpos := Int.lt_of_lt_of_le hheld.1 (hsafe.heldHolds cwd)
    dsimp only
    rw [wlp_bind, wlp_inFs]
    refine wlp_mono (wlp_idup hsafe.ok hpos kernel.holds) ?_
    rintro _ fs' ⟨rfl, hdup, _, _⟩
    have hnext := hsafe.evolves hdup.evolves fun _ => Int.le_refl _
    rw [wlp_setProc]
    exact hnext.withCwd np _ rfl (hnext.inum _ (kernel.holds_cwd hcwd)) (hnext.cwd p _ hcwd)

theorem safe_forkFinish (p np : Slot) : SafeCode live 0 0 (forkFinish p np) := by
  have hregs : Respects Kernel.SameRefs (forkTrapframe p np) := by
    unfold forkTrapframe
    refine respects_read_bind fun kernel => ?_
    split
    · exact respects_inMem _
    · exact respects_panic _
  exact triple_read_bind fun _ =>
    triple_bind (safe_respects (respects_setProc np fun _ => ⟨rfl, rfl⟩)) fun _ =>
    triple_bind (safe_respects hregs) fun _ =>
    triple_bind (triple_forEach (fun i => safe_forkFd p np i) _) fun _ =>
    triple_bind (safe_forkCwd p np) fun _ =>
    safe_respects (respects_bind (respects_setProc np fun _ => ⟨rfl, rfl⟩) fun _ =>
      respects_bind (respects_release _) fun _ =>
      respects_bind (respects_acquire _) fun _ =>
      respects_bind (respects_setProc np fun _ => ⟨rfl, rfl⟩) fun _ =>
      respects_bind (respects_release _) fun _ =>
      respects_bind (respects_acquire _) fun _ =>
      respects_bind (respects_setProc np fun _ => ⟨rfl, rfl⟩) fun _ =>
      respects_bind (respects_release _) fun _ => respects_pure _)

theorem safe_kfork (p : Slot) : SafeCode live 0 0 (kfork p) := by
  refine triple_bind (safe_respects respects_allocproc) fun np => ?_
  cases np with
  | none => exact triple_pure _
  | some np =>
    refine triple_read_bind fun kernel => ?_
    split
    · exact triple_bind (safe_respects (respects_inMem _)) fun copied =>
        triple_bind (safe_respects (respects_setProc np fun _ => ⟨rfl, rfl⟩))
          fun _ => triple_ite (safe_forkFinish p np)
            (safe_respects (respects_bind (respects_freeproc np) fun _ =>
              respects_bind (respects_release _) fun _ => respects_pure _))
    · exact triple_panic _

end SafeCalls

end CkptKernel
