/-
Runs of system calls: any process that can run makes the next call.  What the
calls keep of open files and current directories holds along every run from
boot in which restore is given no stale inode numbers.
-/
import CkptKernel.Lib.Machine
import CkptKernel.SafeRestore

namespace CkptKernel

open ByteMem Code Machine

/-- `sys_checkpoint`: a process can checkpoint itself only. -/
def sysCheckpoint (p : Slot) (pid : Int) (path : Name) (stack : Bytes) : Code Kernel Bool := do
  let kernel ← read
  if pid ≠ 0 ∧ pid ≠ (kernel.proc p).pid then pure false
  else if path.length ≤ 1 then pure false
  else checkpointProc p path stack

def sysRestore (p : Slot) (path : Name) : Code Kernel (Option Nat) :=
  if path.length ≤ 1 then pure none else restoreProc p path

/-- The system calls on files, names and processes. -/
inductive Call where
  | sysOpen (path : Name) (omode : UInt32)
  | sysDup (fd : Nat)
  | sysClose (fd : Nat)
  | sysWrite (fd : Nat) (buf : Nat → Buffer) (n : Int) (room : Nat)
  | sysLink (old new : Name)
  | sysUnlink (path : Name)
  | sysMkdir (path : Name)
  | sysMknod (path : Name) (major minor : UInt16)
  | sysChdir (path : Name)
  | sysFork
  | sysExit (status : Int)
  | sysCheckpoint (pid : Int) (path : Name) (stack : Bytes)
  | sysRestore (path : Name)

/-- What process `p` runs for a call; nothing here depends on what the call
returns. -/
def Call.code (p : Slot) : Call → Code Kernel Unit
  | .sysOpen path omode => do
    let _ ← CkptKernel.sysOpen p path omode
  | .sysDup fd => do
    let _ ← CkptKernel.sysDup p fd
  | .sysClose fd => do
    let _ ← CkptKernel.sysClose p fd
  | .sysWrite fd buf n room => do
    let _ ← CkptKernel.sysWrite p fd buf n room
  | .sysLink old new => do
    let _ ← CkptKernel.sysLink p old new
  | .sysUnlink path => do
    let _ ← CkptKernel.sysUnlink p path
  | .sysMkdir path => do
    let _ ← CkptKernel.sysMkdir p path
  | .sysMknod path major minor => do
    let _ ← CkptKernel.sysMknod p path major minor
  | .sysChdir path => do
    let _ ← CkptKernel.sysChdir p path
  | .sysFork => do
    let _ ← kfork p
  | .sysExit status => kexit p status
  | .sysCheckpoint pid path stack => do
    let _ ← CkptKernel.sysCheckpoint p pid path stack
  | .sysRestore path => do
    let _ ← CkptKernel.sysRestore p path

def Kernel.CanRun (kernel : Kernel) (p : Slot) : Prop :=
  (kernel.proc p).state = .RUNNABLE ∨ (kernel.proc p).state = .RUNNING

instance (kernel : Kernel) (p : Slot) : Decidable (kernel.CanRun p) :=
  inferInstanceAs (Decidable (_ ∨ _))

/-- One call, from its entry to its return. -/
def callStep (kernel : Kernel) (event : Slot × Call) : Option Kernel :=
  if kernel.CanRun event.1 then
    outcome (fun _ kernel' => kernel') (event.2.code event.1 kernel)
  else none

/-- The kernel when the first process starts: no file is open, and one process
is in the root directory. -/
structure Kernel.Boot (kernel : Kernel) : Prop where
  ok : kernel.fs.Ok
  root : (kernel.fs.dinode ROOTINO).type = T_DIR
  file : ∀ f, (kernel.file f).ref = 0 ∧ (kernel.file f).type = .none
  cwd : ∃ p ip, (kernel.proc p).cwd = some ip ∧
    (kernel.fs.inode ip).inum = ROOTINO ∧ 0 < (kernel.fs.inode ip).ref ∧
    ∀ q, q ≠ p → (kernel.proc q).cwd = none

structure Kernel.Cold (kernel : Kernel) : Prop where
  ok : kernel.fs.Ok
  root : (kernel.fs.dinode ROOTINO).type = T_DIR
  file : ∀ f, (kernel.file f).ref = 0 ∧ (kernel.file f).type = .none
  cwd : ∀ p, (kernel.proc p).cwd = none

/-- `namei("/")` takes a reference to the root directory. -/
theorem wlp_namei_root {fs : Fs} {post : Option InodeRef → Fs → Prop}
    (hpost : ∀ ip fs', iget ROOTINO fs = .ok (ip, fs') → post (some ip) fs') :
    wlp (namei none [slash]) fs post := by
  unfold namei namex
  dsimp only
  rw [wlp_bind, if_pos (by decide), wlp_bind]
  intro ip fs' hrun
  have hskip : skipelem [slash] = none := by decide
  unfold namexFrom
  rw [hskip]
  simp only [Bool.false_eq_true, if_false, wlp_pure, Option.map_some]
  exact hpost ip fs' hrun

theorem wlp_userinit {kernel : Kernel} (hcold : kernel.Cold) :
    wlp userinit kernel (fun _ kernel' => kernel'.Boot) := by
  unfold userinit
  refine wlp_seq (respects_allocproc kernel) ?_
  intro p kernel₁ hsame₁
  cases p with
  | none => exact wlp_panic.mpr trivial
  | some p =>
    dsimp only
    rw [wlp_bind, wlp_inFs]
    refine wlp_namei_root fun ip fs₂ higet => ?_
    have hok₁ : kernel₁.fs.Ok := hsame₁.fs ▸ hcold.ok
    have hheld : kernel₁.fs.Held 0 := fun e => hok₁.ref e
    obtain ⟨hinum, href, hnn⟩ := iget_self higet
    rw [wlp_bind, wlp_setProc]
    refine wlp_mono (respects_release _ _) fun _ kernel₃ hsame₃ => ?_
    refine ⟨?_, ?_, ?_, p, ip, ?_, ?_, ?_, ?_⟩
    · rw [hsame₃.fs]
      exact (iget_looks hok₁ hheld higet).ok
    · rw [hsame₃.fs]
      change (fs₂.dinode ROOTINO).type = T_DIR
      rw [iget_dinode higet, hsame₁.fs]
      exact hcold.root
    · intro f
      rw [hsame₃.file]
      change (kernel₁.file f).ref = 0 ∧ (kernel₁.file f).type = .none
      rw [hsame₁.file]
      exact hcold.file f
    · rw [hsame₃.cwd, withProc_self]
    · rw [hsame₃.fs]
      exact hinum
    · rw [hsame₃.fs]
      change 0 < (fs₂.inode ip).ref
      omega
    · intro q hne
      rw [hsame₃.cwd, withProc_of_ne hne, withFs_proc, hsame₁.cwd]
      exact hcold.cwd q

/-- Everything is safe at boot. -/
theorem Kernel.Boot.safe {kernel : Kernel} (hboot : kernel.Boot)
    (live : Prop) : kernel.Safe live 0 := by
  obtain ⟨p, ip, hcwd, hinum, href, hothers⟩ := hboot.cwd
  have hnot : ∀ f, ¬ (kernel.file f).OnInode := fun f hon => by
    have hzero := (hboot.file f).1
    have hpos := hon.ref
    omega
  have hholds : ∀ e, kernel.holds e = one ip e := by
    intro e
    have hfiles : ∑ f, (kernel.file f).holds e = 0 :=
      Finset.sum_eq_zero fun f _ =>
        File.holds_of_closed (Or.inl (hboot.file f).2) e
    have hprocs : ∑ q, (kernel.proc q).holds e = (kernel.proc p).holds e := by
      refine Finset.sum_eq_single p (fun q _ hne => ?_) fun hnot => (hnot (Finset.mem_univ p)).elim
      exact if_neg (by rw [hothers q hne]; simp)
    rw [Kernel.holds, hfiles, hprocs, Proc.holds_some hcwd, zero_add]
  have honly : ∀ {e}, 0 < kernel.holds e → e = ip := by
    intro e he
    by_contra hne
    rw [hholds, one_of_ne hne] at he
    cases he
  refine ⟨hboot.ok, ?_, ?_, fun f _ => (hboot.file f).2, fun f hon => (hnot f hon).elim, ?_⟩
  · intro e
    rw [add_zero, hholds]
    by_cases heq : e = ip
    · rw [heq, one_self]
      exact href
    · rw [one_of_ne heq]
      exact hboot.ok.ref e
  · intro e he
    rw [honly he, hinum]
    exact hboot.ok.root
  · intro q ip' hsome _
    rw [honly (kernel.holds_cwd hsome), Fs.typeOf, hinum]
    exact hboot.root

/-- Restore is given a header whose inodes are there. -/
def RestoresPresent (live : Prop) (kernel : Kernel) (event : Slot × Call) : Prop :=
  match event.2 with
  | .sysRestore path =>
    ∀ hdr ∈ savedHeader kernel event.1 path, hdr.Present live kernel
  | _ => True

instance (live : Prop) [Decidable live] (kernel : Kernel)
    (event : Slot × Call) : Decidable (RestoresPresent live kernel event) := by
  unfold RestoresPresent
  split <;> infer_instance

/-- What a call keeps. -/
theorem wlp_call_safe {live : Prop} {kernel : Kernel} {p : Slot} {call : Call}
    (hsafe : kernel.Safe live 0) (hpresent : RestoresPresent live kernel (p, call)) :
    wlp (call.code p) kernel (fun _ kernel' => kernel'.Safe live 0) := by
  have hthen : ∀ {A : Type} {code : Code Kernel A},
      SafeCode live 0 0 code → wlp (code >>= fun _ => pure ()) kernel
        (fun _ kernel' => kernel'.Safe live 0) := fun hcode =>
    triple_bind hcode (fun _ => triple_pure ()) kernel hsafe
  cases call with
  | sysOpen path omode => exact hthen (safe_sysOpen p path omode)
  | sysDup fd => exact hthen (safe_sysDup p fd)
  | sysClose fd => exact hthen (safe_sysClose (fun _ => Int.le_refl _) p fd)
  | sysWrite fd buf n room => exact hthen (safe_sysWrite p fd buf n room)
  | sysLink old new => exact hthen (safe_sysLink p old new)
  | sysUnlink path => exact hthen (safe_sysUnlink p path)
  | sysMkdir path => exact hthen fun _ h => wlp_make_safe h p path _ _ _
  | sysMknod path major minor =>
    exact hthen fun _ h => wlp_make_safe h p path _ _ _
  | sysChdir path => exact hthen (safe_sysChdir p path)
  | sysFork => exact hthen (safe_kfork p)
  | sysExit status => exact safe_kexit p status kernel hsafe
  | sysCheckpoint pid path stack =>
    exact hthen (triple_read_bind fun _ => triple_ite (triple_pure false)
      (triple_ite (triple_pure false) (safe_checkpointProc p path stack)))
  | sysRestore path =>
    unfold Call.code sysRestore
    rw [wlp_bind, wlp_ite]
    split
    · exact (wlp_pure none).mpr ((wlp_pure _).mpr hsafe)
    · exact wlp_mono (wlp_restoreProc_safe hsafe p path hpresent)
        fun _ _ hdone => (wlp_pure _).mpr hdone

theorem callStep_safe {live : Prop} {kernel next : Kernel} {event : Slot × Call}
    (hsafe : kernel.Safe live 0) (hpresent : RestoresPresent live kernel event)
    (hstep : callStep kernel event = some next) : next.Safe live 0 := by
  unfold callStep at hstep
  split at hstep
  · obtain ⟨_, kernel', hrun, rfl⟩ := outcome_eq_some hstep
    exact wlp_call_safe hsafe hpresent _ _ hrun
  · cases hstep

theorem calls_safe {live : Prop} {kernel final : Kernel} {calls : List (Slot × Call)}
    (hboot : kernel.Boot) (hmeets : RunMeets callStep (RestoresPresent live) kernel calls)
    (hrun : run callStep kernel calls = some final) : final.Safe live 0 :=
  run_invariant (fun _ _ _ hsafe hpresent hstep =>
    callStep_safe hsafe hpresent hstep) (hboot.safe live) hmeets hrun

/-- The first process is in a root directory that lists the file `c`; blocks
from 8 on are free. -/
def bootFs : Fs :=
  (smallFs (fun i => if i = 0 then 0xff else 0) 3 (fun _ => 0xAA)).withInode
    ⟨0, by decide⟩ (fun inode => { inode with ref := 1 })

/-- The first process has one page, not yet allocated. -/
def bootProc (p : Slot) : Proc :=
  if p = initproc then
    ⟨.RUNNABLE, false, 0, 1, none, 1, some (smallPt 0), some 9, fun _ => none,
      some 0, fun i => if i = 0 then 115 else 0⟩
  else ⟨.UNUSED, false, 0, 0, none, 0, none, none, fun _ => none, none, fun _ => 0⟩

def bootKernel : Kernel where
  fs := bootFs
  mem := ⟨smallFrames, fun _ _ => 7⟩
  file := fun _ => ⟨.none, 0, 0, 0, 0, 0, 0, 0⟩
  pipe := fun _ => none
  proc := bootProc
  nextpid := 2
  held := fun _ => false

theorem bootKernel_boot : bootKernel.Boot := by
  refine ⟨?_, by decide +kernel, fun f => ⟨rfl, rfl⟩, initproc, 0, rfl, rfl, by decide +kernel, ?_⟩
  · have hok : (smallFs (fun i => if i = 0 then 0xff else 0) 3
        (fun _ => 0xAA)).Ok := smallFs_ok rfl (by decide)
    refine @Fs.Ok.withInode _ hok ⟨0, by decide⟩
      (fun inode => { inode with ref := 1 }) (by decide) ?_ ?_
    · intro _ e hne he
      exfalso
      have hzero : e.val ≠ 0 := fun heq => hne (Fin.ext heq)
      simp only [smallFs, if_neg hzero] at he
      exact absurd he (by decide)
    · intro _ hvalid
      simp [smallFs] at hvalid
  · intro q hne
    change (bootProc q).cwd = none
    rw [bootProc, if_neg hne]

/-- `create` returns with the lock of the inode it found or made, which was free,
and of no other; with none if it fails. -/
theorem create_locks {kernel : Kernel} (hfs : kernel.FsOk) (p : Slot) (path : Name)
    (type major minor : UInt16) : ends (create (kernel.proc p).cwd path type major minor) kernel.fs
      (fun found fs' => (∀ ip ∈ found, kernel.fs.locks ip = false) ∧ fs'.locks =
        found.elim kernel.fs.locks (Function.update kernel.fs.locks · true)) Lawful := by
  refine ends_mono (ends_create hfs.ok kernel.holds_nonneg hfs.held (hfs.cwdOk p) path type major
    minor) fun found fs' hend => ?_
  cases hend with
  | none _ hlocks => exact ⟨by simp, hlocks⟩
  | old _ _ _ _ hfree hlocks => exact ⟨by simpa using hfree, hlocks⟩
  | new _ _ _ _ _ hfree hlocks => exact ⟨by simpa using hfree, hlocks⟩

theorem create_locks_boot : ends (create (some 0) [99] T_FILE 0 0) bootFs (fun found fs' =>
    (∀ ip ∈ found, bootFs.locks ip = false) ∧
      fs'.locks = found.elim bootFs.locks (Function.update bootFs.locks · true)) Lawful :=
  create_locks (bootKernel_boot.safe False).fsOk initproc [99] T_FILE 0 0

/-- The restored process, in the first slot that was free. -/
def secondProc : Slot := ⟨1, by decide⟩

/-- Open the file `c`, checkpoint to `ck`, and give up the file; then `between`
happens before `ck` is restored. -/
def staleCalls (omode : UInt32) (between : List Call) : List (Slot × Call) :=
  ([Call.sysOpen [99] omode, Call.sysCheckpoint 0 [99, 107] (fun _ => 0),
    Call.sysClose 0] ++ between ++ [Call.sysRestore [99, 107]]).map
      (fun call => (initproc, call))

/-- No open file that can be written is a directory, in any state that calls
lead to from boot. -/
theorem writable_file_not_dir {kernel final : Kernel}
    {calls : List (Slot × Call)} (hboot : kernel.Boot)
    (hmeets : RunMeets callStep (RestoresPresent False) kernel calls)
    (hrun : run callStep kernel calls = some final) (f : FileRef)
    (hopen : 0 < (final.file f).ref) (htype : (final.file f).type = .inode)
    (hwrite : (final.file f).writable ≠ 0) : final.fs.typeOf (final.file f).ip ≠ T_DIR := by
  have hsafe := calls_safe hboot hmeets hrun
  exact ((hsafe.file f ⟨hopen, Or.inl htype⟩).1 htype hwrite).2

/-- The file `c` is still there when `ck` is restored. -/
theorem writable_file_not_dir_kept : RunMeets callStep (RestoresPresent False) bootKernel
        (staleCalls O_RDWR [.sysMkdir [100]]) ∧ ∃ final f, run callStep bootKernel
          (staleCalls O_RDWR [.sysMkdir [100]]) = some final ∧
        (final.proc secondProc).ofile ⟨0, by decide⟩ = some f ∧
        (final.file f).type = .inode ∧ (final.file f).writable ≠ 0 ∧
        final.fs.typeOf (final.file f).ip ≠ T_DIR := by
  have hmeets : RunMeets callStep (RestoresPresent False) bootKernel
      (staleCalls O_RDWR [.sysMkdir [100]]) := by
    decide +kernel
  have hseen : ∃ final ∈ run callStep bootKernel (staleCalls O_RDWR [.sysMkdir [100]]),
      ∃ f ∈ (final.proc secondProc).ofile ⟨0, by decide⟩, 0 < (final.file f).ref ∧
        (final.file f).type = .inode ∧ (final.file f).writable ≠ 0 := by
    decide +kernel
  obtain ⟨final, hrun, f, hof, href, htype, hwrite⟩ := hseen
  exact ⟨hmeets, final, f, hrun, hof, htype, hwrite,
    writable_file_not_dir bootKernel_boot hmeets hrun f href htype hwrite⟩

/-- The inode of `c` is free when `ck` is restored, and a directory has taken
its number. -/
theorem restored_file_is_dir : bootKernel.Boot ∧ ∃ final f, run callStep bootKernel
        (staleCalls O_RDWR [.sysUnlink [99], .sysMkdir [100]]) = some final ∧
      (final.proc secondProc).ofile ⟨0, by decide⟩ = some f ∧
      (final.file f).type = .inode ∧ (final.file f).writable ≠ 0 ∧
      final.fs.typeOf (final.file f).ip = T_DIR := by
  have hseen : ∃ final ∈ run callStep bootKernel (staleCalls O_RDWR
        [.sysUnlink [99], .sysMkdir [100]]), ∃ f ∈ (final.proc secondProc).ofile ⟨0, by decide⟩,
      (final.file f).type = .inode ∧ (final.file f).writable ≠ 0 ∧
      final.fs.typeOf (final.file f).ip = T_DIR := by
    decide +kernel
  obtain ⟨final, hrun, f, hof, hfile⟩ := hseen
  exact ⟨bootKernel_boot, final, f, hrun, hof, hfile⟩

/-- An inode that `ilock` can load. -/
structure Kernel.Names (kernel : Kernel) (ip : InodeRef) : Prop where
  inum : (kernel.fs.inode ip).inum < kernel.fs.sb.ninodes
  type : kernel.fs.typeOf ip ≠ 0
  load : ilock ip kernel.fs ≠ .error (.panic "ilock: no type")

/-- `ilock` has that panic for a free inode only. -/
theorem type_of_ilock_panic {fs : Fs} {ip : InodeRef}
    (hpanic : ilock ip fs = .error (.panic "ilock: no type")) :
    (fs.dinode (fs.inode ip).inum).type = 0 := by
  unfold ilock acquireSleep at hpanic
  rw [read_bind] at hpanic
  split at hpanic
  · change Except.error (Stop.panic "ilock") = _ at hpanic
    simp at hpanic
  cases hlocked : (fs.inode ip).locked with
  | true =>
    rw [bind_of_error (by rw [read_bind, if_pos hlocked]; rfl)] at hpanic
    exact absurd hpanic (by simp)
  | false =>
    rw [bind_of_ok (by rw [read_bind, hlocked]; rfl)] at hpanic
    split at hpanic
    · cases hpanic
    · by_contra hne
      dsimp only at hpanic
      rw [bind_of_ok (show setInode ip _ _ = .ok ((), _) from rfl), if_neg hne] at hpanic
      cases hpanic

theorem Kernel.Safe.names {kernel : Kernel} (hsafe : kernel.Safe True 0) {ip : InodeRef}
    (hheld : 0 < kernel.holds ip) (htype : kernel.fs.typeOf ip ≠ 0) : kernel.Names ip :=
  ⟨hsafe.inum ip hheld, htype, fun hpanic => htype (type_of_ilock_panic hpanic)⟩

/-- Descriptors and current directories are those of inodes that are there, in
any state that calls lead to from boot. -/
theorem names_live {kernel final : Kernel} {calls : List (Slot × Call)} (hboot : kernel.Boot)
    (hmeets : RunMeets callStep (RestoresPresent True) kernel calls)
    (hrun : run callStep kernel calls = some final) (p : Slot) :
    (∀ i f, (final.proc p).ofile i = some f →
      ((final.file f).type = .inode ∨ (final.file f).type = .device) →
      final.Names (final.file f).ip) ∧ ∀ ip, (final.proc p).cwd = some ip →
      final.Names ip ∧ final.fs.typeOf ip = T_DIR := by
  have hsafe := calls_safe hboot hmeets hrun
  refine ⟨?_, ?_⟩
  · intro i f _ htype
    have hopen : 0 < (final.file f).ref := by
      by_contra hzero
      have hnone := hsafe.closed f (by omega)
      rcases htype with htype | htype <;> rw [hnone] at htype <;> cases htype
    have hon : (final.file f).OnInode := ⟨hopen, htype⟩
    exact hsafe.names (final.holds_file hon) ((hsafe.file f hon).2 trivial)
  · intro ip hcwd
    have hdir := hsafe.cwd p ip hcwd trivial
    exact ⟨hsafe.names (final.holds_cwd hcwd) (by rw [hdir]; decide), hdir⟩

/-- The file `c` is still there when `ck` is restored. -/
theorem names_live_kept : RunMeets callStep (RestoresPresent True) bootKernel
        (staleCalls O_RDONLY []) ∧
      ∃ final f, run callStep bootKernel (staleCalls O_RDONLY []) = some final ∧
        (final.proc secondProc).ofile ⟨0, by decide⟩ = some f ∧ final.Names (final.file f).ip := by
  have hmeets : RunMeets callStep (RestoresPresent True) bootKernel (staleCalls O_RDONLY []) := by
    decide +kernel
  have hseen : ∃ final ∈ run callStep bootKernel (staleCalls O_RDONLY []),
      ∃ f ∈ (final.proc secondProc).ofile ⟨0, by decide⟩, (final.file f).type = .inode := by
    decide +kernel
  obtain ⟨final, hrun, f, hof, htype⟩ := hseen
  exact ⟨hmeets, final, f, hrun, hof, (names_live bootKernel_boot hmeets hrun secondProc).1 _ f hof
      (Or.inl htype)⟩

/-- The inode of `c` is free when `ck` is restored; the first use of the
descriptor halts the machine. -/
theorem restored_file_is_free : bootKernel.Boot ∧ ∃ final f, run callStep bootKernel
        (staleCalls O_RDONLY [.sysUnlink [99]]) = some final ∧
      (final.proc secondProc).ofile ⟨0, by decide⟩ = some f ∧
      (final.file f).type = .inode ∧ final.fs.typeOf (final.file f).ip = 0 ∧
      ilock (final.file f).ip final.fs = .error (.panic "ilock: no type") := by
  have hseen : ∃ final ∈ run callStep bootKernel (staleCalls O_RDONLY [.sysUnlink [99]]),
      ∃ f ∈ (final.proc secondProc).ofile ⟨0, by decide⟩, (final.file f).type = .inode ∧
        final.fs.typeOf (final.file f).ip = 0 ∧
        stopped (ilock (final.file f).ip final.fs) = some (.panic "ilock: no type") := by
    decide +kernel
  obtain ⟨final, hrun, f, hof, htype, hfree, hpanic⟩ := hseen
  exact ⟨bootKernel_boot, final, f, hrun, hof, htype, hfree, stopped_eq_some hpanic⟩

end CkptKernel
