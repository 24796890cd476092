/-
The calls on descriptors: read, write, dup and close.  On descriptors that are
open on inodes they are the steps of a table of descriptors, in which an open
file has a position, and what a transfer does is a function of the inode, the
position and the file system.
-/
import CkptKernel.CallRuns
import CkptKernel.FileCounts
import CkptKernel.FileRead
import CkptKernel.Lib.Descriptors
import CkptKernel.QuietCalls

namespace CkptKernel

open ByteMem Code Descriptors Machine

/-- What stays fixed of a file that is open on an inode. -/
structure FdAttr where
  readable : UInt8
  writable : UInt8
  inum : Nat
deriving DecidableEq, Repr

/-- The descriptors of process `p`.  Pipes and devices have no offset. -/
def Kernel.fdTable (kernel : Kernel) (p : Slot) :
    Descriptors.Table (Fin NOFILE) FileRef FdAttr UInt32 where
  slot i := ((kernel.proc p).ofile i).map (fun f =>
    if (kernel.file f).type = .inode then some f else none)
  attr f := ⟨(kernel.file f).readable, (kernel.file f).writable,
    (kernel.fs.inode (kernel.file f).ip).inum⟩
  pos f := (kernel.file f).off

section Slots

variable {kernel : Kernel} {p : Slot} {i : Fin NOFILE} {f : FileRef}

theorem fdTable_slot_open : (kernel.fdTable p).slot i = some (some f) ↔
    (kernel.proc p).ofile i = some f ∧ (kernel.file f).type = .inode := by
  refine Option.map_eq_some_iff.trans ⟨?_, fun h => ⟨f, h.1, if_pos h.2⟩⟩
  rintro ⟨g, hopen, hkind⟩
  split at hkind
  next htype =>
    cases hkind
    exact ⟨hopen, htype⟩
  next => cases hkind

theorem fdTable_slot_plain : (kernel.fdTable p).slot i = some none ↔
    ∃ g, (kernel.proc p).ofile i = some g ∧ (kernel.file g).type ≠ .inode := by
  refine Option.map_eq_some_iff.trans ⟨?_, ?_⟩
  · rintro ⟨g, hopen, hkind⟩
    split at hkind
    next => cases hkind
    next htype => exact ⟨g, hopen, htype⟩
  · rintro ⟨g, hopen, htype⟩
    exact ⟨g, hopen, if_neg htype⟩

theorem fdTable_slot_free : (kernel.fdTable p).slot i = none ↔
    (kernel.proc p).ofile i = none := Option.map_eq_none_iff

end Slots

/-! ### Transfers -/

/-- A read into the memory `mem`, or a write. -/
inductive FileReq where
  | read (access : Nat → Bool) (n : Int) (mem : Bytes)
  | write (buf : Nat → Buffer) (n : Int)

/-- The inode's part of `fileread`: the result, the memory and the offset. -/
def readAt (ip : InodeRef) (access : Nat → Bool) (n : Int) (mem : Bytes) (off : UInt32) :
    Code Fs ((Int × Bytes) × UInt32) := do
  ilock ip
  let result ← readi ip (.user mem access) off.toNat (toUint n)
  iunlock ip
  match result.1 with
  | none => pure ((-1, result.2), off)
  | some r => pure ((r, result.2), off + UInt32.ofNat r)

def writeChunk (ip : InodeRef) (buf : Buffer) (off n1 : Nat) : Code Fs (Option Nat) := do
  beginOp
  ilock ip
  let r ← writei ip buf off n1
  iunlock ip
  endOp
  pure r

/-- The loop of `filewrite`: how much has been written, and the offset. -/
def writeAt (ip : InodeRef) (buf : Nat → Buffer) (n : Nat) :
    Nat → Nat → UInt32 → Code Fs (Nat × UInt32)
  | 0, i, off => pure (i, off)
  | fuel + 1, i, off =>
    if i < n then do
      let n1 := min (n - i) writeMax
      let r ← writeChunk ip (buf i) off.toNat n1
      let off := off + UInt32.ofNat (r.getD 0)
      if r ≠ some n1 then pure (i, off) else writeAt ip buf n fuel (i + n1) off
    else pure (i, off)

/-- What a transfer through a file with these attributes does. -/
def FileReq.onInode (attr : FdAttr) (ip : InodeRef) (off : UInt32) :
    FileReq → Code Fs ((Int × Option Bytes) × UInt32)
  | .read access n mem =>
    if attr.readable = 0 then pure ((-1, some mem), off)
    else do
      let result ← readAt ip access n mem off
      pure ((result.1.1, some result.1.2), result.2)
  | .write buf n =>
    if attr.writable = 0 then pure ((-1, none), off)
    else do
      let result ← writeAt ip buf n.toNat n.toNat 0 off
      pure ((if result.1 = n then n else -1, none), result.2)

/-- The entry of the inode table for an inode that is in use. -/
def Fs.inUse (fs : Fs) (inum : Nat) : Option InodeRef :=
  (List.finRange NINODE).find? fun e => decide (0 < (fs.inode e).ref ∧ (fs.inode e).inum = inum)

def fileIo : Transfer FdAttr UInt32 FileReq (Int × Option Bytes) Fs := fun attr off req fs =>
  match (fs.inUse attr.inum).map fun ip => req.onInode attr ip off fs with
  | some (.ok ((resp, off'), fs')) => (resp, off', fs')
  | _ => ((-1, none), off, fs)

def File.withOff (file : File) (off : UInt32) : File := { file with off := off }

section Transfers

variable {kernel : Kernel} {p : Slot} {i : Fin NOFILE} {f : FileRef}

theorem Fs.Ok.inUse_inum {fs : Fs} {ip : InodeRef} (hok : fs.Ok) (hpos : 0 < (fs.inode ip).ref) :
    fs.inUse (fs.inode ip).inum = some ip := by
  unfold Fs.inUse
  cases hfound : (List.finRange NINODE).find? fun e =>
      decide (0 < (fs.inode e).ref ∧ (fs.inode e).inum = (fs.inode ip).inum) with
  | none => simpa [hpos] using List.find?_eq_none.mp hfound ip (List.mem_finRange ip)
  | some e =>
    have hentry := List.find?_some hfound
    obtain ⟨hpos', hinum⟩ := of_decide_eq_true hentry
    rw [hok.unique e ip hpos' hpos hinum]

/-- The offset of one file moves, in a file system whose table of inodes has
the same entries. -/
theorem fdTable_move {fs : Fs} (hsame : kernel.fs.SameInums fs) (off : UInt32) :
    ((kernel.withFs fs).withFile f ((kernel.file f).withOff off)).fdTable p =
      (kernel.fdTable p).move f off := by
  have hfile : ∀ g, ((kernel.withFs fs).withFile f ((kernel.file f).withOff off)).file g =
      (kernel.file g).withOff (Function.update (fun g => (kernel.file g).off) f off g) := by
    intro g
    by_cases hg : g = f
    · rw [hg, withFile_self, Function.update_self]
    · rw [withFile_of_ne hg, Function.update_of_ne hg]
      rfl
  ext1
  · funext k
    simp only [Kernel.fdTable, hfile]
    rfl
  · funext g
    simp only [Kernel.fdTable, hfile]
    exact congrArg (FdAttr.mk _ _) (hsame _)
  · funext g
    simp only [Kernel.fdTable, hfile]
    rfl

theorem moved_self (kernel : Kernel) (f : FileRef) : (kernel.withFs kernel.fs).withFile f
    ((kernel.file f).withOff (kernel.file f).off) = kernel := by
  simp [Kernel.withFile, Kernel.withFs, File.withOff]

/-- The loop of `filewrite` moves one offset and works on the file system. -/
theorem wlp_filewriteFrom (buf : Nat → Buffer) (n fuel k : Nat) :
    wlp (filewriteFrom f buf n fuel k) kernel (fun k' kernel' => ∃ off fs,
      writeAt (kernel.file f).ip buf n fuel k (kernel.file f).off kernel.fs = .ok ((k', off), fs) ∧
      kernel' = (kernel.withFs fs).withFile f ((kernel.file f).withOff off)) := by
  induction fuel generalizing kernel k with
  | zero => exact (wlp_pure _).mpr ⟨_, _, rfl, (moved_self kernel f).symm⟩
  | succ fuel ih =>
    unfold filewriteFrom writeAt
    rw [wlp_ite]
    split
    · rw [wlp_bind, wlp_inFs]
      rintro _ fs₁ hbegin
      rw [wlp_bind, wlp_read, wlp_bind, wlp_inFs]
      rintro _ fs₂ (hlock : ilock (kernel.file f).ip fs₁ = _)
      rw [wlp_bind, wlp_inFs]
      rintro r fs₃ (hwrite : writei (kernel.file f).ip (buf k) (kernel.file f).off.toNat
        (min (n - k) writeMax) fs₂ = _)
      rw [wlp_bind, wlp_setFile, wlp_bind, wlp_inFs]
      rintro _ fs₄ (hunlock : iunlock (kernel.file f).ip fs₃ = _)
      rw [wlp_bind, wlp_inFs]
      rintro _ fs₅ (hend : endOp fs₄ = _)
      have hchunk : writeChunk (kernel.file f).ip (buf k) (kernel.file f).off.toNat
          (min (n - k) writeMax) kernel.fs = .ok (r, fs₅) := by
        unfold writeChunk
        rw [bind_of_ok hbegin, bind_of_ok hlock, bind_of_ok hwrite, bind_of_ok hunlock,
          bind_of_ok hend]
        rfl
      rw [bind_of_ok hchunk, wlp_ite]
      split
      · exact (wlp_pure _).mpr ⟨_, _, rfl, rfl⟩
      refine wlp_mono (ih _) ?_
      rintro k' kernel' ⟨off, fs, hrest, rfl⟩
      refine ⟨off, fs, ?_, ?_⟩
      · simpa [Kernel.withFile, Kernel.withFs, File.withOff] using hrest
      · simp [Kernel.withFile, Kernel.withFs, File.withOff]
    · exact (wlp_pure _).mpr ⟨_, _, rfl, (moved_self kernel f).symm⟩

theorem wlp_filewrite (attr : FdAttr) (hattr : attr.writable = (kernel.file f).writable)
    (htype : (kernel.file f).type = .inode) (buf : Nat → Buffer) (n : Int) (room : Nat) :
    wlp (filewrite p f buf n room) kernel (fun r kernel' => ∃ off fs,
      (FileReq.write buf n).onInode attr (kernel.file f).ip (kernel.file f).off kernel.fs =
        .ok (((r, none), off), fs) ∧
      kernel' = (kernel.withFs fs).withFile f ((kernel.file f).withOff off)) := by
  unfold filewrite FileReq.onInode
  dsimp only
  rw [wlp_bind, wlp_read, wlp_ite, hattr, htype]
  split
  · exact (wlp_pure _).mpr ⟨_, _, rfl, (moved_self kernel f).symm⟩
  refine wlp_seq (wlp_filewriteFrom buf _ _ 0) ?_
  rintro k kernel' ⟨off, fs, hrun, rfl⟩
  refine (wlp_pure _).mpr ⟨off, fs, ?_, rfl⟩
  rw [bind_of_ok hrun]
  rfl

/-- `fileread` of an inode moves one offset and works on the file system. -/
theorem wlp_filereadInode (access : Nat → Bool) (n : Int) (io : ReadIo) :
    wlp (filereadInode access n) io (fun r io' => ∃ off,
      readAt io.file.ip access n io.mem io.file.off io.fs = .ok (((r, io'.mem), off), io'.fs) ∧
      io'.file = io.file.withOff off) := by
  unfold filereadInode readAt readFs
  rw [wlp_bind, wlp_read, wlp_bind, wlp_within]
  rintro _ fs₁ hlock
  rw [wlp_bind, wlp_within]
  rintro result fs₂ (hread : readi io.file.ip _ _ _ fs₁ = _)
  rw [wlp_bind, wlp_update, bind_of_ok hlock, bind_of_ok hread]
  cases result.1 with
  | none =>
    rw [wlp_bind, wlp_within]
    rintro _ fs₃ (hunlock : iunlock io.file.ip fs₂ = _)
    rw [wlp_pure, bind_of_ok hunlock]
    exact ⟨_, rfl, rfl⟩
  | some r =>
    rw [wlp_bind, wlp_update, wlp_bind, wlp_within]
    rintro _ fs₃ (hunlock : iunlock io.file.ip fs₂ = _)
    rw [wlp_pure, bind_of_ok hunlock]
    exact ⟨_, rfl, rfl⟩

theorem wlp_fileread {io : ReadIo} (attr : FdAttr) (hattr : attr.readable = io.file.readable)
    (htype : io.file.type = .inode) (access : Nat → Bool) (n : Int) :
    wlp (fileread access n) io (fun r io' => ∃ off,
      (FileReq.read access n io.mem).onInode attr io.file.ip io.file.off io.fs =
        .ok (((r, some io'.mem), off), io'.fs) ∧
      io'.file = io.file.withOff off) := by
  unfold fileread FileReq.onInode
  dsimp only
  rw [wlp_bind, wlp_read, wlp_ite, hattr, htype]
  split
  · exact (wlp_pure _).mpr ⟨_, rfl, rfl⟩
  refine wlp_mono (wlp_filereadInode access n io) ?_
  rintro r io' ⟨off, hrun, hfile⟩
  refine ⟨off, ?_, hfile⟩
  rw [bind_of_ok hrun]
  rfl

theorem steady_writeAt {Inv : Fs → Prop} [Steady Inv] (ip : InodeRef) (buf : Nat → Buffer)
    (n fuel k : Nat) (off : UInt32) : Keeps (fun _ => True) Inv (writeAt ip buf n fuel k off) := by
  induction fuel generalizing k off with
  | zero => exact leads_pure _
  | succ fuel ih =>
    refine leads_ite (leads_bind ?_ fun _ => leads_ite (leads_pure _) (ih _ _)) (leads_pure _)
    exact leads_bind quiet_beginOp fun _ => leads_bind (quiet_ilock trivial ip) fun _ =>
      leads_bind (quiet_writei _ _ _) fun _ => leads_bind (quiet_iunlock ip) fun _ =>
      leads_bind quiet_endOp fun _ => leads_pure _

/-- A transfer takes no entry of the inode table for another inode. -/
theorem wlp_onInode_sameInums (attr : FdAttr) (ip : InodeRef) (off : UInt32) (req : FileReq)
    (fs : Fs) : wlp (req.onInode attr ip off) fs (fun _ => fs.SameInums) := by
  apply wlp_sameInums
  cases req with
  | read access n mem =>
    refine leads_ite (leads_pure _) (leads_bind ?_ fun _ => leads_pure _)
    refine leads_bind (quiet_ilock trivial ip) fun _ => leads_bind (quiet_readi _ _ _) fun got =>
      leads_bind (quiet_iunlock ip) fun _ => ?_
    cases got.1 with
    | none => exact leads_pure _
    | some r => exact leads_pure _
  | write buf n =>
    exact leads_ite (leads_pure _) (leads_bind (steady_writeAt _ _ _ _ _ _) fun _ => leads_pure _)

/-- A transfer in the kernel is a step of the table. -/
theorem step_transfer {fs : Fs} {req : FileReq} {resp : Int × Option Bytes} {off : UInt32}
    (hfs : kernel.FsOk) (hfds : kernel.FdsOpen p) (hopen : (kernel.proc p).ofile i = some f)
    (htype : (kernel.file f).type = .inode)
    (hreq : req.onInode ((kernel.fdTable p).attr f) (kernel.file f).ip (kernel.file f).off
      kernel.fs = .ok ((resp, off), fs)) :
    step fileIo (List.finRange NOFILE) (kernel.fdTable p) kernel.fs (.transfer i req) =
      (.moved resp,
        ((kernel.withFs fs).withFile f ((kernel.file f).withOff off)).fdTable p, fs) := by
  have hpos := kernel.holds_file ⟨hfds i f hopen, Or.inl htype⟩
  have hentry : kernel.fs.inUse ((kernel.fdTable p).attr f).inum = some (kernel.file f).ip :=
    hfs.ok.inUse_inum (hpos.trans_le (hfs.held _))
  have hio : fileIo ((kernel.fdTable p).attr f) ((kernel.fdTable p).pos f) req kernel.fs =
      (resp, off, fs) := by
    rw [fileIo, hentry, Option.map_some]
    change (match some (req.onInode _ _ (kernel.file f).off kernel.fs) with
      | some (.ok ((resp, off'), fs')) => (resp, off', fs')
      | _ => ((-1, none), _, kernel.fs)) = _
    rw [hreq]
  rw [fdTable_move (wlp_onInode_sameInums _ _ _ _ _ _ _ hreq)]
  simp only [step, fdTable_slot_open.mpr ⟨hopen, htype⟩, hio]

/-- The first process opens the file `c`. -/
def opensFile : List (Slot × Call) := [(initproc, .sysOpen [99] O_RDWR)]

theorem opensFile_ready (hrun : run callStep bootKernel opensFile = some kernel) :
    kernel.FsOk ∧ kernel.FdsOpen initproc ∧ ∃ f,
      (kernel.proc initproc).ofile ⟨0, by decide⟩ = some f ∧ (kernel.file f).type = .inode := by
  have hseen : ∀ kernel ∈ run callStep bootKernel opensFile,
      (∀ i, ∀ f ∈ (kernel.proc initproc).ofile i, 0 < (kernel.file f).ref) ∧
      ∃ f ∈ (kernel.proc initproc).ofile ⟨0, by decide⟩, (kernel.file f).type = .inode := by
    decide +kernel
  have hmeets : RunMeets callStep (RestoresPresent False) bootKernel opensFile := by
    decide +kernel
  obtain ⟨hfds, hfile⟩ := hseen kernel hrun
  exact ⟨(calls_safe bootKernel_boot hmeets hrun).fsOk, hfds, hfile⟩

/-- `sys_write` through a descriptor on an inode. -/
theorem wlp_sysWrite_table (hfs : kernel.FsOk) (hfds : kernel.FdsOpen p)
    (hopen : (kernel.proc p).ofile i = some f) (htype : (kernel.file f).type = .inode)
    (buf : Nat → Buffer) (n : Int) (room : Nat) :
    wlp (sysWrite p i buf n room) kernel (fun r kernel' =>
      step fileIo (List.finRange NOFILE) (kernel.fdTable p) kernel.fs (.transfer i (.write buf n)) =
        (.moved (r, none), kernel'.fdTable p, kernel'.fs)) := by
  unfold sysWrite argfd
  rw [wlp_bind, wlp_bind, wlp_read, dif_pos i.isLt, wlp_pure, Fin.eta, hopen]
  refine wlp_mono (wlp_filewrite ((kernel.fdTable p).attr f) rfl htype buf n room) ?_
  rintro r kernel' ⟨off, fs, hreq, rfl⟩
  exact step_transfer hfs hfds hopen htype hreq

theorem wlp_sysWrite_table_one : ∃ kernel kernel',
    run callStep bootKernel opensFile = some kernel ∧
    sysWrite initproc 0 (fun _ => .kernel fun _ => 65) 1 0 kernel = .ok (1, kernel') ∧
    step fileIo (List.finRange NOFILE) (kernel.fdTable initproc) kernel.fs
        (.transfer ⟨0, by decide⟩ (.write (fun _ => .kernel fun _ => 65) 1)) =
      (.moved (1, none), kernel'.fdTable initproc, kernel'.fs) := by
  have hseen : ∃ kernel ∈ run callStep bootKernel opensFile,
      wp (sysWrite initproc 0 (fun _ => .kernel fun _ => 65) 1 0) kernel (fun r _ => r = 1) := by
    decide +kernel
  obtain ⟨kernel, hrun, _, kernel', hwrite, rfl⟩ := hseen
  obtain ⟨hfs, hfds, f, hopen, htype⟩ := opensFile_ready hrun
  exact ⟨kernel, kernel', hrun, hwrite, wlp_sysWrite_table hfs hfds hopen htype _ _ _ _ _ hwrite⟩

/-- `sys_read` through a descriptor on an inode. -/
theorem wlp_sysRead_table (hfs : kernel.FsOk) (hfds : kernel.FdsOpen p)
    (hopen : (kernel.proc p).ofile i = some f) (htype : (kernel.file f).type = .inode)
    (access : Nat → Bool) (n : Int) (world : World) (wakes : List World) (mem : Bytes) :
    wlp (sysRead p i access n world wakes mem) kernel (fun result kernel' =>
      step fileIo (List.finRange NOFILE) (kernel.fdTable p) kernel.fs
          (.transfer i (.read access n mem)) =
        (.moved (result.1, some result.2.2), kernel'.fdTable p, kernel'.fs)) := by
  unfold sysRead argfd inRead
  rw [wlp_bind, wlp_bind, wlp_read, dif_pos i.isLt, wlp_pure, Fin.eta, hopen]
  intro result kernel' hcall
  dsimp only [Option.map_some] at hcall
  split at hcall
  next r io hread =>
    cases hcall
    obtain ⟨off, hreq, hfile⟩ := wlp_fileread ((kernel.fdTable p).attr f) rfl htype access n
      r io hread
    rw [hfile]
    exact step_transfer hfs hfds hopen htype hreq
  next => cases hcall

theorem wlp_sysRead_table_two : ∃ kernel kernel' world mem,
    run callStep bootKernel opensFile = some kernel ∧
    sysRead initproc 0 (fun _ => true) 2 openIo.world [] (fun _ => 0) kernel =
      .ok ((2, world, mem), kernel') ∧
    step fileIo (List.finRange NOFILE) (kernel.fdTable initproc) kernel.fs
        (.transfer ⟨0, by decide⟩ (.read (fun _ => true) 2 fun _ => 0)) =
      (.moved (2, some mem), kernel'.fdTable initproc, kernel'.fs) := by
  have hseen : ∃ kernel ∈ run callStep bootKernel opensFile,
      wp (sysRead initproc 0 (fun _ => true) 2 openIo.world [] (fun _ => 0)) kernel
        (fun result _ => result.1 = 2) := by
    decide +kernel
  obtain ⟨kernel, hrun, ⟨_, world, mem⟩, kernel', hread, rfl⟩ := hseen
  obtain ⟨hfs, hfds, f, hopen, htype⟩ := opensFile_ready hrun
  exact ⟨kernel, kernel', world, mem, hrun, hread,
    wlp_sysRead_table hfs hfds hopen htype _ _ _ _ _ _ _ hread⟩

end Transfers

section Calls

variable {kernel : Kernel} {p : Slot} {i : Fin NOFILE} {f : FileRef}

/-- A file that keeps what a transfer looks at. -/
structure File.Like (file file' : File) : Prop where
  readable : file'.readable = file.readable
  writable : file'.writable = file.writable
  ip : file'.ip = file.ip
  off : file'.off = file.off

theorem like_withFile {file : File} (hlike : (kernel.file f).Like file) (g : FileRef) :
    (kernel.file g).Like ((kernel.withFile f file).file g) := by
  by_cases hg : g = f
  · rw [hg, withFile_self]
    exact hlike
  · rw [withFile_of_ne hg]
    exact ⟨rfl, rfl, rfl, rfl⟩

/-- One descriptor changes, the files stay what they are. -/
theorem fdTable_put {kernel' : Kernel} {j : Fin NOFILE} {target : Option FileRef}
    (hofile : (kernel'.proc p).ofile = Function.update (kernel.proc p).ofile j target)
    (hlike : ∀ g, (kernel.file g).Like (kernel'.file g))
    (hinum : ∀ e, (kernel'.fs.inode e).inum = (kernel.fs.inode e).inum)
    (htype : ∀ k g, (kernel'.proc p).ofile k = some g →
      (kernel'.file g).type = (kernel.file g).type) :
    kernel'.fdTable p = (kernel.fdTable p).put j (target.map (fun f =>
      if (kernel.file f).type = .inode then some f else none)) := by
  have hslot : ∀ k, (kernel'.fdTable p).slot k = ((kernel'.proc p).ofile k).map (fun f =>
        if (kernel.file f).type = .inode then some f else none) := by
    intro k
    refine Option.map_congr fun g hg => ?_
    rw [htype k g hg]
  ext1
  · funext k
    rw [hslot, hofile]
    by_cases hk : k = j
    · simp [Table.put, hk]
    · simp [Table.put, Function.update_of_ne hk, Kernel.fdTable]
  · funext g
    obtain ⟨hr, hw, hip, _⟩ := hlike g
    simp only [Table.put, Kernel.fdTable, hr, hw, hip, hinum]
  · funext g
    exact (hlike g).off

/-- What `sys_dup` answers. -/
def dupAnswer {Resp : Type} : Option (Fin NOFILE) → Answer (Fin NOFILE) Resp
  | some j => .opened j
  | none => .failed

/-- `sys_dup` on the table. -/
theorem wlp_sysDup_table (i : Fin NOFILE) : wlp (sysDup p i) kernel (fun result kernel' =>
      ∀ (Req Resp World : Type) (io : Transfer FdAttr UInt32 Req Resp World)
        (world : World), step io (List.finRange NOFILE) (kernel.fdTable p) world
          (.dup i) = (dupAnswer result, kernel'.fdTable p, world)) := by
  have hlowest : (kernel.fdTable p).lowest (List.finRange NOFILE) =
      (List.finRange NOFILE).find? (fun fd =>
        decide ((kernel.proc p).ofile fd = none)) := by
    unfold Table.lowest
    congr 1
    funext fd
    rw [Bool.eq_iff_iff, Option.isNone_iff_eq_none, fdTable_slot_free, decide_eq_true_eq]
  unfold sysDup argfd
  rw [wlp_bind, wlp_bind, wlp_read, dif_pos i.isLt, wlp_pure]
  cases hopen : (kernel.proc p).ofile i with
  | none =>
    refine (wlp_pure _).mpr fun Req Resp World io world => ?_
    simp only [step, fdTable_slot_free.mpr hopen, dupAnswer]
  | some f =>
    have hslot : ∃ entry, (kernel.fdTable p).slot i = some entry := by
      refine Option.ne_none_iff_exists'.mp ?_
      rw [ne_eq, fdTable_slot_free, hopen]
      simp
    obtain ⟨entry, hslot⟩ := hslot
    simp only [Option.map_some, Fin.eta]
    unfold fdalloc
    rw [wlp_bind, wlp_bind, wlp_read, ← hlowest]
    cases hfound : (kernel.fdTable p).lowest (List.finRange NOFILE) with
    | none =>
      rw [wlp_pure]
      refine (wlp_pure _).mpr fun Req Resp World io world => ?_
      simp only [step, hslot, hfound, dupAnswer]
    | some j =>
      dsimp only
      rw [wlp_bind, wlp_setOfile, wlp_pure]
      dsimp only
      unfold filedup
      rw [wlp_bind, wlp_bind, wlp_read, wlp_ite]
      split
      · exact wlp_panic.mpr trivial
      rw [wlp_setFile, wlp_pure]
      intro Req Resp World io world
      have htable := @fdTable_put kernel p ((kernel.withOfile p j
        (some f)).withFile f { kernel.file f with
          ref := (kernel.file f).ref + 1 }) j (some f) ?_ ?_ (fun _ => rfl) ?_
      · have hentry : entry = if (kernel.file f).type = .inode then some f else none := by
          have heq : (kernel.fdTable p).slot i = ((kernel.proc p).ofile i).map _ := rfl
          rw [hslot, hopen] at heq
          exact Option.some.inj heq
        simp only [step, hslot, hfound, dupAnswer, Prod.mk.injEq, and_true, true_and]
        rw [hentry]
        exact htable.symm
      · exact withOfile_ofile (some f)
      · exact like_withFile ⟨rfl, rfl, rfl, rfl⟩
      · intro k g _
        by_cases hg : g = f
        · rw [hg, withFile_self]
        · rw [withFile_of_ne hg]
          rfl

theorem wlp_pipeclose_tables (pi : Frame) (writable : Bool) :
    wlp (pipeclose pi writable) kernel (fun _ kernel' =>
      kernel'.file = kernel.file ∧ kernel'.proc = kernel.proc ∧ kernel'.fs = kernel.fs) := by
  unfold pipeclose
  rw [wlp_bind, wlp_read]
  cases kernel.pipe pi with
  | none => exact wlp_panic.mpr trivial
  | some pipe =>
    dsimp only
    generalize (if writable then { pipe with writeopen := false }
      else { pipe with readopen := false } : Pipe) = left
    rw [wlp_ite]
    split
    · rw [wlp_bind]
      intro _ kernel₁ hset
      cases hset
      rw [wlp_inMem]
      exact fun _ _ _ => ⟨rfl, rfl, rfl⟩
    · intro _ kernel₁ hset
      cases hset
      exact ⟨rfl, rfl, rfl⟩

/-- `fileclose` leaves every file that is still open as it is. -/
theorem wlp_fileclose_like : wlp (fileclose f) kernel (fun _ kernel' => kernel'.proc = kernel.proc ∧
      (∀ e, (kernel'.fs.inode e).inum = (kernel.fs.inode e).inum) ∧
      (∀ g, (kernel.file g).Like (kernel'.file g)) ∧ ∀ g, g ≠ f ∨ 1 < (kernel.file f).ref →
        (kernel'.file g).type = (kernel.file g).type) := by
  unfold fileclose
  rw [wlp_bind, wlp_read]
  dsimp only
  rw [wlp_ite]
  split
  · exact wlp_panic.mpr trivial
  rw [wlp_ite]
  split
  · rw [wlp_setFile]
    refine ⟨rfl, fun _ => rfl, like_withFile ⟨rfl, rfl, rfl, rfl⟩, fun g _ => ?_⟩
    by_cases hg : g = f
    · rw [hg, withFile_self]
    · rw [withFile_of_ne hg]
  next hlast =>
    have hlike := @like_withFile kernel f (kernel.file f).released ⟨rfl, rfl, rfl, rfl⟩
    have htype : ∀ g, g ≠ f ∨ 1 < (kernel.file f).ref →
        ((kernel.withFile f (kernel.file f).released).file g).type = (kernel.file g).type := by
      rintro g (hg | hmore)
      · rw [withFile_of_ne hg]
      · exact absurd hmore hlast
    rw [wlp_bind, wlp_setFile]
    change wlp _ (kernel.withFile f (kernel.file f).released) _
    cases (kernel.file f).type with
    | none => exact (wlp_pure ()).mpr ⟨rfl, fun _ => rfl, hlike, htype⟩
    | pipe =>
      refine wlp_mono (wlp_pipeclose_tables _ _) ?_
      rintro _ kernel' ⟨hfile, hproc, hfs⟩
      rw [hfile, hproc, hfs]
      exact ⟨rfl, fun _ => rfl, hlike, htype⟩
    | _ =>
      rw [wlp_bind, wlp_inFs]
      refine wlp_beginOp ?_
      rw [wlp_bind, wlp_inFs]
      refine wlp_mono (wlp_sameInums (quiet_iput trivial)) fun _ fs₁ hinums => ?_
      rw [wlp_inFs]
      exact wlp_endOp fun log => ⟨rfl, hinums, hlike, htype⟩

/-- `sys_close` on the table.  A file that is closed for good has no other
descriptor. -/
theorem wlp_sysClose_table (i : Fin NOFILE)
    (hcounted : ∀ f k, (kernel.proc p).ofile i = some f →
      (kernel.proc p).ofile k = some f → k ≠ i → 1 < (kernel.file f).ref) :
    wlp (sysClose p i) kernel (fun ok kernel' =>
      ∀ (Req Resp World : Type) (io : Transfer FdAttr UInt32 Req Resp World)
        (world : World), step io (List.finRange NOFILE) (kernel.fdTable p) world (.close i) =
            (if ok then .closed else .failed, kernel'.fdTable p, world)) := by
  unfold sysClose argfd
  rw [wlp_bind, wlp_bind, wlp_read, dif_pos i.isLt, wlp_pure]
  cases hopen : (kernel.proc p).ofile i with
  | none =>
    refine (wlp_pure _).mpr fun Req Resp World io world => ?_
    simp only [step, fdTable_slot_free.mpr hopen, Bool.false_eq_true, if_false]
  | some f =>
    simp only [Option.map_some, Fin.eta]
    rw [wlp_bind, wlp_setOfile, wlp_bind]
    have hclose := @wlp_fileclose_like (kernel.withOfile p i none) f
    refine wlp_mono hclose ?_
    rintro _ kernel' ⟨hproc, hinums, hlike, htype⟩
    refine (wlp_pure _).mpr fun Req Resp World io world => ?_
    have hofile : (kernel'.proc p).ofile = Function.update (kernel.proc p).ofile i none := by
      rw [hproc, Kernel.withOfile, withProc_self]
    have htable := @fdTable_put kernel p kernel' i none hofile hlike hinums ?_
    · have hslot : (kernel.fdTable p).slot i ≠ none := by
        rw [ne_eq, fdTable_slot_free, hopen]
        simp
      obtain ⟨entry, hslot⟩ := Option.ne_none_iff_exists'.mp hslot
      simp only [step, hslot, if_true]
      rw [htable]
      rfl
    · intro k g hg
      rw [hofile] at hg
      have hk : k ≠ i := by
        rintro rfl
        rw [Function.update_self] at hg
        cases hg
      rw [Function.update_of_ne hk] at hg
      refine htype g ?_
      by_cases heq : g = f
      · exact Or.inr (hcounted f k hopen (heq ▸ hg) hk)
      · exact Or.inl heq

/-- Descriptors 0 and 1 of the first process are one open file. -/
def sharedKernel : Kernel :=
  (bootKernel.withProc initproc { bootProc initproc with
    ofile := fun i => if i.val < 2 then some 0 else none }).withFile 0
      ⟨.inode, 2, 1, 0, 0, 0, 0, 0⟩

theorem wlp_sysClose_table_shared : ∃ kernel',
    sysClose initproc 0 sharedKernel = .ok (true, kernel') ∧ ∀ (Req Resp World : Type)
      (io : Transfer FdAttr UInt32 Req Resp World) (world : World),
      step io (List.finRange NOFILE) (sharedKernel.fdTable initproc) world
        (.close ⟨0, by decide⟩) = (.closed, kernel'.fdTable initproc, world) := by
  refine ⟨_, rfl, wlp_sysClose_table _ (fun f k hf _ _ => ?_) true _ rfl⟩
  cases hf
  decide

end Calls

end CkptKernel
