/-
Calls on names that return -1.  Each of them undoes what it has begun, so the
tree and the files are as before, except for `sys_open` with `O_CREATE`: it
creates the file first and looks for a free `struct file` and a free descriptor
after that, and when there is none the new name stays.
-/
import CkptKernel.PathResolution
import CkptKernel.SafeCalls

namespace CkptKernel

open Code

/-- Every directory has its names, and every inode its type, links and
contents. -/
structure Fs.SameTree (fs fs' : Fs) : Prop where
  view : fs'.view = fs.view
  bytes : ∀ x, (fs.view x).kind ≠ 0 → (fs.view x).kind ≠ T_DIR → fs.SameBytes fs' x

inductive NameCall
  | sysOpen (path : Name) (omode : UInt32)
  | sysMkdir (path : Name)
  | sysMknod (path : Name) (major minor : UInt16)
  | sysLink (old new : Name)
  | sysUnlink (path : Name)

/-- Make the call; the result says whether it is other than -1. -/
def NameCall.run (p : Slot) : NameCall → Code Kernel Bool
  | .sysOpen path omode => do
    let fd ← CkptKernel.sysOpen p path omode
    pure fd.isSome
  | .sysMkdir path => CkptKernel.sysMkdir p path
  | .sysMknod path major minor => CkptKernel.sysMknod p path major minor
  | .sysLink old new => CkptKernel.sysLink p old new
  | .sysUnlink path => CkptKernel.sysUnlink p path

/-- There is no free `struct file`, or process `p` has no free descriptor. -/
def Kernel.Full (kernel : Kernel) (p : Slot) : Prop :=
  (∀ f, (kernel.file f).ref ≠ 0) ∨ ∀ fd, (kernel.proc p).ofile fd ≠ none

/-- The call creates a file and cannot open it. -/
def NameCall.Strands (kernel : Kernel) (p : Slot) : NameCall → Prop
  | .sysOpen path omode => omode &&& O_CREATE ≠ 0 ∧
      (∃ d name, kernel.fs.resolve (kernel.proc p).cwd path true =
        some (d, name) ∧ kernel.fs.CanAdd d name) ∧ kernel.Full p
  | _ => False

/-- A consistent file system, as process `p` finds it. -/
structure Kernel.Consistent (kernel : Kernel) (p : Slot) : Prop where
  fs : kernel.fs.Settled
  cwd : ∀ ip, (kernel.proc p).cwd = some ip → 0 < kernel.fs.refs ip
  closed : ∀ f, (kernel.file f).ref = 0 → (kernel.file f).type = .none

section Calls

variable {kernel : Kernel} {p : Slot} {fs fs' fs₀ : Fs}
  {cwd : Option InodeRef} {ip : InodeRef} {h c : InodeRef → Int} {v : View}

theorem Fs.SameTree.of_now (hnow : Fs.Now c fs.view fs fs') : fs.SameTree fs' := by
  refine ⟨hnow.view, fun x hkind hfile => ?_⟩
  exact (hnow.spares x hkind (by rwa [hnow.view])).2 hfile

theorem Fs.Settled.withLog (hset : fs.Settled) (log : Log) : (fs.withLog log).Settled :=
  ⟨hset.ok.withLog log, hset.shelters, hset.alive, hset.zero, hset.small⟩

/-- The log is no part of the tree. -/
theorem Fs.SameTree.withLog {log log' : Log} (hsame : (fs.withLog log).SameTree fs') :
    fs.SameTree (fs'.withLog log') := by
  refine ⟨hsame.view, fun x hkind hfile => ?_⟩
  have hbytes := hsame.bytes x hkind hfile
  exact ⟨hbytes.size, hbytes.byte⟩

theorem Fs.SameTree.still (hsame : fs.SameTree fs')
    {fs'' : Fs} (hstill : Fs.Still fs' fs'') : fs.SameTree fs'' := by
  refine ⟨hstill.view.trans hsame.view, fun x hkind hfile => ?_⟩
  obtain ⟨hsize, hbyte⟩ := hsame.bytes x hkind hfile
  have hdinode : fs''.dinode x = fs'.dinode x := by
    rw [Fs.dinode, Fs.dinode, hstill.disk, hstill.sb]
  exact ⟨by rw [hdinode, hsize], fun o ho => by
    rw [hdinode, hstill.disk, hbyte o ho]⟩

theorem canAdd_withLog {log : Log} {d : Nat} {name : Name} :
    (fs.withLog log).CanAdd d name ↔ fs.CanAdd d name := by
  have hfits : (fs.withLog log).EntryFits d ↔ fs.EntryFits d :=
    placeFits_congr rfl (fun _ _ => rfl) fun _ => rfl
  exact ⟨fun hadd => ⟨hadd.new, hadd.inode, hfits.mp hadd.fits⟩,
    fun hadd => ⟨hadd.new, hadd.inode, hfits.mpr hadd.fits⟩⟩

/-- A transaction that leaves the tree alone when it fails. -/
def Fs.Undoes (cwd : Option InodeRef) (code : Code Fs Bool) : Prop :=
  ∀ fs : Fs, fs.Settled → (∀ ip, cwd = some ip → 0 < fs.refs ip) →
    wlp code fs (fun done fs' => done = false → fs.SameTree fs')

theorem undoes_link (cwd : Option InodeRef) (old new : Name) :
    Fs.Undoes cwd (link cwd old new) := fun _ hset hcwd =>
  wlp_mono (wlp_link_now hset hcwd old new) fun _ _ hback hfail =>
    .of_now (hback hfail)

theorem undoes_make (cwd : Option InodeRef) (path : Name) {type : UInt16} (htype : type ≠ 0)
    (major minor : UInt16) : Fs.Undoes cwd (make cwd path type major minor) := by
  intro fs hset hcwd
  unfold make
  refine wlp_seq (wlp_create_now hset hcwd path htype major minor) ?_
  rintro found fs₁ (⟨rfl, hnow, _⟩ | ⟨ip, d, name, rfl, _⟩)
  · exact (wlp_pure _).mpr fun _ => .of_now hnow
  · dsimp only
    rw [wlp_bind]
    exact fun _ _ _ => (wlp_pure _).mpr nofun

theorem wlp_inOp_undoes (hcons : kernel.Consistent p) {code : Code Fs Bool}
    (hundoes : Fs.Undoes (kernel.proc p).cwd code) :
    wlp (inOp code) kernel (fun done kernel' => done = false → kernel.fs.SameTree kernel'.fs) := by
  unfold inOp
  rw [wlp_bind, wlp_inFs]
  refine wlp_beginOp ?_
  rw [wlp_bind, wlp_inFs]
  refine wlp_mono (hundoes _ (hcons.fs.withLog _) hcons.cwd) ?_
  intro done fs₁ hsame
  rw [wlp_bind, wlp_inFs]
  exact wlp_endOp fun log => (wlp_pure _).mpr fun hfail =>
    (hsame hfail).withLog

/-- The inode that `sys_open` opens is one of the tree as it was, or it is a
new file. -/
theorem wlp_openInode_now (hset : fs.Settled) (hcwd : ∀ ip, cwd = some ip → 0 < fs.refs ip)
    (path : Name) (omode : UInt32) : wlp (openInode cwd path omode) fs (fun found fs' => ∃ v',
      (v' = fs.view ∧ (omode &&& O_CREATE ≠ 0 → ∀ d name,
        fs.resolve cwd path true = some (d, name) → ¬fs.CanAdd d name) ∧
        (found = none → Fs.Now fs.refs v' fs fs') ∨
      (omode &&& O_CREATE ≠ 0 ∧ found ≠ none ∧ ∃ d name,
        fs.resolve cwd path true = some (d, name) ∧ fs.CanAdd d name ∧
        v' ≠ fs.view ∧ ∀ ip, found = some ip → (fs'.inode ip).copy.type = T_FILE)) ∧
      ∀ ip, found = some ip → Fs.Now (fs.refs + one ip) v' fs fs' ∧ fs'.Shelters fs.refs) := by
  have hdir : T_FILE ≠ T_DIR := by decide
  unfold openInode
  split
  next hcreate =>
    refine wlp_mono (wlp_create_now hset hcwd path (by decide : T_FILE ≠ 0) 0 0) ?_
    rintro found fs' (⟨rfl, hnow, hfull⟩ | ⟨ip, d, name, rfl, htarget, hmade⟩)
    · exact ⟨_, Or.inl ⟨rfl, fun _ => hfull hdir, fun _ => hnow⟩, nofun⟩
    obtain ⟨x, v', hmade, hname⟩ := hmade hdir
    refine ⟨v', ?_, ?_⟩
    · rcases hname with ⟨hold, rfl⟩ | ⟨hadd, hfree, hkind⟩
      · refine Or.inl ⟨rfl, fun _ d' name' heq hadd => ?_, nofun⟩
        rw [htarget] at heq
        cases heq
        exact hold hadd.new
      · refine Or.inr ⟨hcreate, nofun, d, name, htarget, hadd, ?_, ?_⟩
        · rintro rfl
          rw [hfree] at hkind
          exact absurd hkind (by decide)
        · rintro ip' ⟨⟩
          rw [← hmade.now.kind hmade.has, hkind]
    · rintro ip' ⟨⟩
      exact ⟨hmade.now, hmade.shelters⟩
  next hplain =>
    have hno : omode &&& O_CREATE ≠ 0 → ∀ d name,
        fs.resolve cwd path true = some (d, name) → ¬fs.CanAdd d name :=
      fun hcreate => (hplain hcreate).elim
    refine wlp_seq (wlp_namei_now hset hcwd path) ?_
    rintro found fs₁ ⟨hret₁, ⟨rfl, hnow₁⟩ | ⟨ip, x, rfl, hnow₁, hnum, hin⟩⟩
    · exact (wlp_pure _).mpr ⟨_, Or.inl ⟨rfl, hno, fun _ => hnow₁⟩, nofun⟩
    dsimp only
    refine wlp_seq (wlp_ilock_now hnow₁ hnum hin) ?_
    rintro _ fs₂ ⟨hnow₂, hret₂, _, _⟩
    have hshel₂ := hset.shelters_same (hret₁.trans (hret₂.mono
      (le_add_one _ ip))) hnow₂ fun _ => Int.le_refl _
    rw [wlp_bind, wlp_read, wlp_ite]
    split
    · refine wlp_seq (wlp_iunlockput_now hnow₂ hshel₂) ?_
      rintro _ fs₃ ⟨hnow₃, _, _⟩
      exact (wlp_pure _).mpr ⟨_, Or.inl ⟨rfl, hno, fun _ => hnow₃⟩, nofun⟩
    · refine (wlp_pure _).mpr ⟨fs.view, Or.inl ⟨rfl, hno, nofun⟩, ?_⟩
      rintro ip' ⟨⟩
      exact ⟨hnow₂, hshel₂⟩

section

variable (kernel : Kernel) (hnow : Fs.Now (h + one ip) v fs₀ kernel.fs)
  (hshel : kernel.fs.Shelters h)
include hnow hshel

/-- The error exits of `sys_open` leave disk and tree alone. -/
theorem wlp_openFail_still : wlp (openFail ip) kernel (fun fd kernel' => fd = none ∧
      ∃ fs' log, kernel'.fs = fs'.withLog log ∧ Fs.Still kernel.fs fs') := by
  unfold openFail
  rw [wlp_bind, wlp_inFs]
  refine wlp_mono (wlp_iunlockput_now hnow hshel) ?_
  rintro _ fs₁ ⟨_, _, hstill⟩
  rw [wlp_bind, wlp_inFs]
  exact wlp_endOp fun log => (wlp_pure _).mpr ⟨rfl, fs₁, log, rfl, hstill⟩

/-- `sys_open` has its inode: whether it fails, and that it leaves the disk
alone if so. -/
theorem wlp_openWith_told (hclosed : ∀ f, (kernel.file f).ref = 0 → (kernel.file f).type = .none)
    (p : Slot) (omode : UInt32) : wlp (openWith p ip omode) kernel (fun fd kernel' =>
      (fd = none ↔ kernel.Full p ∨ ((kernel.fs.inode ip).copy.type = T_DEVICE ∧
          NDEV ≤ (kernel.fs.inode ip).copy.major.toNat)) ∧
      (fd = none → ∃ fs' log, kernel'.fs = fs'.withLog log ∧ Fs.Still kernel.fs fs')) := by
  unfold openWith
  rw [wlp_bind, wlp_read, wlp_ite]
  split
  next hdevice =>
    refine wlp_mono (wlp_openFail_still _ hnow hshel) ?_
    rintro fd kernel' ⟨rfl, hstill⟩
    exact ⟨⟨fun _ => Or.inr hdevice, fun _ => rfl⟩, fun _ => hstill⟩
  rename_i hplain
  rw [or_iff_left hplain]
  refine wlp_seq wlp_filealloc ?_
  rintro found kernel₁ (⟨rfl, rfl, hfull⟩ | ⟨f, rfl, hfree, rfl⟩)
  · refine wlp_mono (wlp_openFail_still _ hnow hshel) ?_
    rintro fd kernel' ⟨rfl, hstill⟩
    exact ⟨⟨fun _ => Or.inl hfull, fun _ => rfl⟩, fun _ => hstill⟩
  dsimp only
  unfold fdalloc
  rw [wlp_bind, wlp_bind, wlp_read]
  have hproc : (kernel.withFile f (kernel.file f).taken).proc p = kernel.proc p := rfl
  cases hfound : (List.finRange NOFILE).find? (fun fd => decide
      (((kernel.withFile f (kernel.file f).taken).proc p).ofile fd = none)) with
  | none =>
    rw [wlp_pure]
    dsimp only
    have hfull : kernel.Full p := by
      refine Or.inr fun fd hnone => ?_
      exact List.find?_eq_none.mp hfound fd (List.mem_finRange fd) (decide_eq_true hnone)
    -- the file that is closed has no type yet
    unfold fileclose
    simp only [wlp_bind, wlp_read, withFile_self]
    have hone : (kernel.file f).taken.ref = 1 := rfl
    have htype : (kernel.file f).taken.type = .none := hclosed f hfree
    rw [hone, wlp_ite, if_neg (by decide), wlp_ite, if_neg (by decide),
      wlp_bind, wlp_setFile, htype, wlp_pure]
    refine wlp_mono (wlp_openFail_still ((kernel.withFile f
      (kernel.file f).taken).withFile f _) hnow hshel) ?_
    rintro fd kernel' ⟨rfl, hstill⟩
    exact ⟨⟨fun _ => hfull, fun _ => rfl⟩, fun _ => hstill⟩
  | some fd =>
    rw [wlp_bind, setOfile, wlp_setProc, wlp_pure]
    dsimp only
    have hroom : ¬kernel.Full p := by
      rintro (hfull | hfull)
      · exact hfull f hfree
      · have hnone := List.find?_some hfound
        exact hfull fd (of_decide_eq_true hnone)
    unfold openFile
    simp only [wlp_bind, wlp_read, wlp_pure]
    intro _ _ _ _ _ _ _ _ _ _ _ _
    exact ⟨⟨by simp, fun hfull => (hroom hfull).elim⟩, by simp⟩

end

/-- The whole of `sys_open`. -/
theorem wlp_sysOpen_told (hcons : kernel.Consistent p) (path : Name)
    (omode : UInt32) : wlp (sysOpen p path omode) kernel (fun fd kernel' =>
      (NameCall.Strands kernel p (.sysOpen path omode) → fd = none ∧
        ¬kernel.fs.SameTree kernel'.fs) ∧
      (fd = none → ¬NameCall.Strands kernel p (.sysOpen path omode) →
        kernel.fs.SameTree kernel'.fs)) := by
  unfold sysOpen
  rw [wlp_bind, wlp_inFs]
  refine wlp_beginOp ?_
  rw [wlp_bind, wlp_read, wlp_bind, wlp_inFs]
  refine wlp_mono (wlp_openInode_now (hcons.fs.withLog kernel.fs.log.reserve)
    hcons.cwd path omode) ?_
  rintro found fs₁ ⟨v', htree, hfound⟩
  cases found with
  | none =>
    dsimp only
    rw [wlp_bind, wlp_inFs]
    refine wlp_endOp fun log => (wlp_pure _).mpr ?_
    rcases htree with ⟨rfl, hfull, hnow⟩ | ⟨_, hsome, _⟩
    · refine ⟨?_, fun _ _ => (Fs.SameTree.of_now (hnow rfl)).withLog⟩
      rintro ⟨hcreate, ⟨d, name, htarget, hadd⟩, _⟩
      exact (hfull hcreate d name htarget (canAdd_withLog.mpr hadd)).elim
    · exact (hsome rfl).elim
  | some ip =>
    obtain ⟨hnow, hshel⟩ := hfound ip rfl
    refine wlp_mono (wlp_openWith_told ((kernel.withFs
      (kernel.fs.withLog kernel.fs.log.reserve)).withFs fs₁) hnow hshel
      hcons.closed p omode) ?_
    rintro fd kernel' ⟨hnone, hstill⟩
    rcases htree with ⟨rfl, hfull, _⟩ | ⟨hcreate, _, d, name, htarget, hadd, hview, htype⟩
    · refine ⟨?_, fun hfail _ => ?_⟩
      · rintro ⟨hcreate, ⟨d, name, htarget, hadd⟩, _⟩
        exact (hfull hcreate d name htarget (canAdd_withLog.mpr hadd)).elim
      · obtain ⟨fs₂, log, heq, hstill⟩ := hstill hfail
        rw [heq]
        exact ((Fs.SameTree.of_now hnow).still hstill).withLog
    · -- a new file, which is not a device
      have hplain : ¬(((fs₁.inode ip).copy.type = T_DEVICE) ∧
          NDEV ≤ (fs₁.inode ip).copy.major.toNat) := by
        rintro ⟨hdevice, _⟩
        rw [htype ip rfl] at hdevice
        exact absurd hdevice (by decide)
      rw [withFs_fs, or_iff_left hplain] at hnone
      refine ⟨?_, fun hfail hstrands => ?_⟩
      · rintro ⟨_, _, hfull⟩
        have hfail := hnone.mpr hfull
        refine ⟨hfail, fun hsame => hview ?_⟩
        obtain ⟨fs₂, log, heq, hstill⟩ := hstill hfail
        rw [heq] at hsame
        rw [← hnow.view]
        exact hstill.view.symm.trans hsame.view
      · exact (hstrands ⟨hcreate, ⟨d, name, htarget, canAdd_withLog.mp hadd⟩, hnone.mp hfail⟩).elim

end Calls

/-- A call that returns -1 has changed nothing, unless it is an open with
`O_CREATE` that creates the file and finds no `struct file` or no descriptor
for it. -/
theorem failed_call_same_tree {kernel kernel' : Kernel} {p : Slot}
    (hcons : kernel.Consistent p) (call : NameCall) {done : Bool}
    (hrun : call.run p kernel = .ok (done, kernel')) :
    (done = false → kernel.fs.SameTree kernel'.fs) ↔ ¬call.Strands kernel p := by
  have hundone : ∀ {code : Code Fs Bool}, Fs.Undoes (kernel.proc p).cwd code →
      inOp code kernel = .ok (done, kernel') → done = false → kernel.fs.SameTree kernel'.fs :=
    fun hundoes hrun => wlp_inOp_undoes hcons hundoes done kernel' hrun
  cases call with
  | sysOpen path omode =>
    have htold : wlp (NameCall.run p (.sysOpen path omode)) kernel (fun done kernel' =>
          (NameCall.Strands kernel p (.sysOpen path omode) → done = false ∧
            ¬kernel.fs.SameTree kernel'.fs) ∧ (done = false →
            ¬NameCall.Strands kernel p (.sysOpen path omode) → kernel.fs.SameTree kernel'.fs)) := by
      unfold NameCall.run
      refine wlp_seq (wlp_sysOpen_told hcons path omode) ?_
      rintro fd kernel' ⟨hstrands, hsame⟩
      rw [wlp_pure, Option.isSome_eq_false_iff, Option.isNone_iff_eq_none]
      exact ⟨hstrands, hsame⟩
    obtain ⟨hstrands, hsame⟩ := htold done kernel' hrun
    refine ⟨fun hkept hstrand => ?_, fun hnot hfail => hsame hfail hnot⟩
    obtain ⟨hfail, hchanged⟩ := hstrands hstrand
    exact hchanged (hkept hfail)
  | sysMkdir path =>
    exact iff_of_true (hundone (undoes_make _ path (by decide) 0 0) hrun) id
  | sysMknod path major minor =>
    exact iff_of_true (hundone (undoes_make _ path (by decide) major minor) hrun) id
  | sysLink old new =>
    exact iff_of_true (hundone (undoes_link _ old new) hrun) id
  | sysUnlink path =>
    refine iff_of_true (hundone (fun _ hset hcwd => ?_) hrun) id
    exact wlp_mono (wlp_unlink_now hset hcwd path) fun _ _ hback hfail => .of_now (hback hfail)

/-- A process that has duplicated its one descriptor as often as it can. -/
def dupKernel : Kernel :=
  { smallKernel 0 0 (fun i => if i = 0 then 0xff else 0) 3 (fun _ => 0xAA) with
    file := fun f => if f = 0 then ⟨.inode, 16, 1, 0, 0, 0, 5, 0⟩
      else ⟨.none, 0, 0, 0, 0, 0, 0, 0⟩
    proc := fun p => if p = initproc then
        { smallProc 0 0 p with ofile := fun _ => some 0 }
      else smallProc 0 0 p }

theorem dupKernel_consistent : dupKernel.Consistent initproc := by
  refine ⟨pathFs_graph.settled, ?_, by decide⟩
  rintro ip ⟨⟩
  decide

theorem failed_call_mkdir_taken : dupKernel.Consistent initproc ∧
    ∃ kernel', (NameCall.sysMkdir [99]).run initproc dupKernel =
      .ok (false, kernel') ∧ dupKernel.fs.SameTree kernel'.fs := by
  have hfail : wp ((NameCall.sysMkdir [99]).run initproc) dupKernel
      (fun done _ => done = false) := by
    decide +kernel
  obtain ⟨_, kernel', hrun, rfl⟩ := hfail
  exact ⟨dupKernel_consistent, kernel', hrun,
    (failed_call_same_tree dupKernel_consistent _ hrun).mpr id rfl⟩

/-- `sys_open` of the new name "n" with `O_CREATE` returns -1, since there is
no free descriptor, and the file "n" is there afterwards. -/
theorem failed_open_creates : dupKernel.Consistent initproc ∧
    ∃ kernel', (NameCall.sysOpen [110] O_CREATE).run initproc dupKernel =
      .ok (false, kernel') ∧ dupKernel.fs.view.lookup 1 [110] = none ∧
      (kernel'.fs.view.lookup 1 [110]).map Entry.inum = some 3 ∧
      ¬dupKernel.fs.SameTree kernel'.fs := by
  have hold : dupKernel.fs.view.lookup 1 [110] = none := by decide +kernel
  have hcreates : wp ((NameCall.sysOpen [110] O_CREATE).run initproc) dupKernel
      (fun done kernel' => done = false ∧
        (kernel'.fs.view.lookup 1 [110]).map Entry.inum = some 3) := by
    decide +kernel
  obtain ⟨_, kernel', hrun, rfl, hnew⟩ := hcreates
  refine ⟨dupKernel_consistent, kernel', hrun, hold, hnew, fun hsame => ?_⟩
  rw [hsame.view, hold] at hnew
  cases hnew

end CkptKernel
