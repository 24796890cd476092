/-
Checkpoint and restore: `checkpoint_proc` and `restore_proc` of kernel/proc.c
with `checkpoint_addr_space` and `restore_addr_space` of kernel/vm.c.
-/
import CkptKernel.Kernel

namespace CkptKernel

open ByteMem Code

def CKPT_MAGIC : Nat := 0x43484B50
def CKPT_VERSION : Nat := 1

def FD_NONE : Nat := 0
def FD_PIPE : Nat := 1
def FD_INODE : Nat := 2
def FD_DEVICE : Nat := 3

def FileType.toNat : FileType → Nat
  | .none => FD_NONE
  | .pipe => FD_PIPE
  | .inode => FD_INODE
  | .device => FD_DEVICE

/-- `struct ckpt_fd`; signed fields as their 32 bits. -/
structure CkptFd where
  type : Nat
  readable : UInt8
  writable : UInt8
  inum : Nat
  off : Nat
  major : UInt16
  pipeId : Nat
deriving DecidableEq, Repr

def minusOne : Nat := 2 ^ 32 - 1

/-- An empty entry, as `checkpoint_proc` initialises them. -/
def CkptFd.empty : CkptFd := ⟨FD_NONE, 0, 0, 0, 0, 0, minusOne⟩

structure CkptHeader where
  magic : Nat
  version : Nat
  pid : Nat
  sz : Nat
  tf : Bytes
  name : Bytes
  numFds : Nat
  cwdInum : Nat
  fds : Fin NOFILE → CkptFd

def TRAPFRAMESZ : Nat := 288

def HDRSZ : Nat := 720

/-- Length of the C string at `src`, looking at `n` bytes. -/
def strlen (src : Bytes) : Nat → Nat
  | 0 => 0
  | n + 1 => if src 0 = 0 then 0 else strlen (fun i => src (i + 1)) n + 1

/-- `safestrcpy(dst, src, n)` to `dst = mem + off`.  A string that ends early is
copied with its NUL, and the byte behind it is cleared too. -/
def safestrcpy (mem : Bytes) (off : Nat) (src : Bytes) (n : Nat) : Bytes :=
  if n = 0 then mem
  else
    let len := strlen src (n - 1)
    let mem := Function.update (blit mem off len src) (off + len) 0
    if len < n - 1 then Function.update mem (off + (len + 1)) 0 else mem

def putFd (fd : CkptFd) (mem : Bytes) (off : Nat) : Bytes :=
  let mem := putLE mem off 4 fd.type
  let mem := putLE mem (off + 4) 1 fd.readable.toNat
  let mem := putLE mem (off + 5) 1 fd.writable.toNat
  let mem := putLE mem (off + 8) 4 fd.inum
  let mem := putLE mem (off + 12) 4 fd.off
  let mem := putLE mem (off + 16) 2 fd.major.toNat
  putLE mem (off + 20) 4 fd.pipeId

def getFd (mem : Bytes) (off : Nat) : CkptFd where
  type := getLE mem off 4
  readable := mem (off + 4)
  writable := mem (off + 5)
  inum := getLE mem (off + 8) 4
  off := getLE mem (off + 12) 4
  major := UInt16.ofNat (getLE mem (off + 16) 2)
  pipeId := getLE mem (off + 20) 4

def fdOffset (i : Nat) : Nat := 336 + 24 * i

def putFds (fds : Fin NOFILE → CkptFd) (slots : List (Fin NOFILE))
    (mem : Bytes) : Bytes :=
  slots.foldl (fun mem i => putFd (fds i) mem (fdOffset i)) mem

/-- Fill in the fields before `fds` on a kernel stack that holds `stack`;
padding and the rest of the name keep what was there. -/
def putFields (hdr : CkptHeader) (stack : Bytes) : Bytes :=
  let mem := putLE stack 0 4 hdr.magic
  let mem := putLE mem 4 4 hdr.version
  let mem := putLE mem 8 4 hdr.pid
  let mem := putLE mem 16 8 hdr.sz
  let mem := blit mem 24 TRAPFRAMESZ hdr.tf
  let mem := safestrcpy mem 312 hdr.name 16
  let mem := putLE mem 328 4 hdr.numFds
  putLE mem 332 4 hdr.cwdInum

def putHeader (hdr : CkptHeader) (stack : Bytes) : Bytes :=
  putFds hdr.fds (List.finRange NOFILE) (putFields hdr stack)

def getHeader (mem : Bytes) : CkptHeader where
  magic := getLE mem 0 4
  version := getLE mem 4 4
  pid := getLE mem 8 4
  sz := getLE mem 16 8
  tf := fun i => mem (24 + i)
  name := fun i => mem (312 + i)
  numFds := getLE mem 328 4
  cwdInum := getLE mem 332 4
  fds := fun i => getFd mem (fdOffset i)

/-- What `checkpoint_proc` counts for one entry of its `pipes` array. -/
structure PipeUse where
  pipe : Frame
  nrefs : Nat
  readRefs : Nat
  writeRefs : Nat
deriving DecidableEq, Repr

/-- The variables of `checkpoint_proc`'s loop over `p->ofile`. -/
structure Capture where
  fds : Fin NOFILE → CkptFd
  numFds : Nat
  pipes : List PipeUse

def Capture.start : Capture := ⟨fun _ => .empty, 0, []⟩

def Capture.put (capture : Capture) (i : Fin NOFILE) (fd : CkptFd) : Capture :=
  { capture with
    fds := Function.update capture.fds i fd
    numFds := capture.numFds + 1 }

/-- Count one more reference to a pipe end; both or neither of `readable` and
`writable` is refused, and so is a third reference. -/
def PipeUse.count (use : PipeUse) (file : File) : Option PipeUse :=
  let use := { use with nrefs := use.nrefs + 1 }
  if file.readable ≠ 0 ∧ file.writable = 0 then
    if 2 < use.nrefs then none
    else some { use with readRefs := use.readRefs + 1 }
  else if file.readable = 0 ∧ file.writable ≠ 0 then
    if 2 < use.nrefs then none
    else some { use with writeRefs := use.writeRefs + 1 }
  else none

/-- The search of the `pipes` array, extended with a new entry for a pipe not
met before: the array and the `pipe_id`. -/
def Capture.pipeId (pipes : List PipeUse) (pi : Frame) : Option (List PipeUse × Nat) :=
  match pipes.findIdx? (fun use => decide (use.pipe = pi)) with
  | some id => some (pipes, id)
  | none =>
    if NOFILE ≤ pipes.length then none
    else some (pipes ++ [⟨pi, 0, 0, 0⟩], pipes.length)

def Capture.file (inode : InodeRef → Inode) (capture : Capture)
    (i : Fin NOFILE) (file : File) : Option Capture :=
  match file.type with
  | .inode => some (capture.put i ⟨FD_INODE, file.readable, file.writable,
      (inode file.ip).inum, file.off.toNat, 0, minusOne⟩)
  | .device => some (capture.put i ⟨FD_DEVICE, file.readable, file.writable,
      (inode file.ip).inum, 0, file.major, minusOne⟩)
  | .pipe => do
    let (pipes, id) ← Capture.pipeId capture.pipes file.pipe
    let use ← pipes[id]?
    let use ← use.count file
    pure { capture.put i ⟨FD_PIPE, file.readable, file.writable, 0, 0, 0,
      id⟩ with pipes := pipes.set id use }
  | .none => none

def captureFrom (kernel : Kernel) (p : Slot) : List (Fin NOFILE) → Capture → Option Capture
  | [], capture => some capture
  | i :: rest, capture =>
    match (kernel.proc p).ofile i with
    | none => captureFrom kernel p rest capture
    | some f => do
      let capture ← capture.file kernel.fs.inode i (kernel.file f)
      captureFrom kernel p rest capture

/-- A pipe both of whose ends the process holds, once each. -/
def PipeUse.Paired (use : PipeUse) : Prop :=
  use.nrefs = 2 ∧ use.readRefs = 1 ∧ use.writeRefs = 1

instance (use : PipeUse) : Decidable use.Paired :=
  inferInstanceAs (Decidable (_ ∧ _))

/-- Capture the FD table; `none` rejects the process. -/
def captureFds (kernel : Kernel) (p : Slot) : Option Capture := do
  let capture ← captureFrom kernel p (List.finRange NOFILE) .start
  if capture.pipes.all (fun use => decide use.Paired) then pure capture
  else none

/-- The header `checkpoint_proc` builds for process `p`. -/
def ckptHeader (kernel : Kernel) (p : Slot) (capture : Capture) : CkptHeader where
  magic := CKPT_MAGIC
  version := CKPT_VERSION
  pid := (kernel.proc p).pid
  sz := (kernel.proc p).sz
  tf := match (kernel.proc p).trapframe with
    | some frame => kernel.mem.page frame
    | none => fun _ => 0
  name := (kernel.proc p).name
  numFds := capture.numFds
  cwdInum := match (kernel.proc p).cwd with
    | some ip => (kernel.fs.inode ip).inum
    | none => 0
  fds := capture.fds

/-- Contents of the page behind a PTE.  User mappings are never of the
trampoline page. -/
def Mem.physBytes (mem : Mem) : Phys → Bytes
  | .frame frame => mem.page frame
  | .trampoline => fun _ => 0

/-- Walk page table and write all user pages to checkpoint file: `left` more
pages, the next one page `k`, at `off`. -/
def checkpointAddrSpace (pt : PageTable) (ip : InodeRef) : Nat → Nat → Nat → Code Kernel Bool
  | 0, _, _ => pure true
  | left + 1, k, off => do
    let pte ← inMem (walk pt (k * PGSIZE))
    let kernel ← read
    let present : UInt8 := if pte.isSome then 1 else 0
    let written ← inFs (writei ip (.kernel (fun _ => present)) off 1)
    if written ≠ some 1 then pure false
    else
      match pte with
      | none => checkpointAddrSpace pt ip left (k + 1) (off + 1)
      | some pte => do
        let written ← inFs (writei ip
          (.kernel (kernel.mem.physBytes pte.pa)) (off + 1) PGSIZE)
        if written ≠ some PGSIZE then pure false
        else checkpointAddrSpace pt ip left (k + 1) (off + 1 + PGSIZE)

def checkpointWrite (p : Slot) (ip : InodeRef) (hdr : CkptHeader)
    (stack : Bytes) : Code Kernel Bool := do
  let written ← inFs (writei ip (.kernel (putHeader hdr stack)) 0 HDRSZ)
  if written ≠ some HDRSZ then pure false
  else do
    let kernel ← read
    match (kernel.proc p).pagetable with
    | none => .panic "null pagetable"
    | some pt => checkpointAddrSpace pt ip (pagesOf (kernel.proc p).sz) 0 HDRSZ

/-- `checkpoint_proc` between `begin_op` and `end_op`. -/
def checkpointBody (p : Slot) (path : Name) (stack : Bytes) : Code Kernel Bool := do
  let kernel ← read
  let ip ← inFs (create (kernel.proc p).cwd path T_FILE 0 0)
  match ip with
  | none => pure false
  | some ip => do
    let kernel ← read
    let ok ← match captureFds kernel p with
      | none => pure false
      | some capture =>
        checkpointWrite p ip (ckptHeader kernel p capture) stack
    inFs (iunlockput ip)
    pure ok

/-- `checkpoint_proc(p, path)` for the current process `p`; `false` stands for
-1.  `stack` is what the kernel stack held. -/
def checkpointProc (p : Slot) (path : Name) (stack : Bytes) : Code Kernel Bool := do
  inFs beginOp
  let ok ← checkpointBody p path stack
  inFs endOp
  pure ok

/-- Read pages from checkpoint file and load into process address space:
`left` more pages, the next one page `k`, at `off`. -/
def restoreAddrSpace (pt : PageTable) (ip : InodeRef) : Nat → Nat → Nat → Code Kernel Bool
  | 0, _, _ => pure true
  | left + 1, k, off => do
    let present ← inFs (readi ip (.kernel (fun _ => 0)) off 1)
    if present.1 ≠ some 1 then pure false
    else do
      let pte ← inMem (walk pt (k * PGSIZE))
      match pte with
      | some ⟨.frame frame, _⟩ =>
        if present.2 0 ≠ 0 then do
          let kernel ← read
          let page ← inFs (readi ip (.kernel (kernel.mem.page frame))
            (off + 1) PGSIZE)
          inMem (setPage frame page.2)
          if page.1 ≠ some PGSIZE then pure false
          else restoreAddrSpace pt ip left (k + 1) (off + 1 + PGSIZE)
        else do
          inMem (setPage frame (fun _ => 0))
          restoreAddrSpace pt ip left (k + 1) (off + 1)
      | _ => pure false

/-- Rebuild fd `i` if it was an inode or a device; `false` goes to `bad`. -/
def restoreFd (np : Slot) (hdr : CkptHeader) (i : Fin NOFILE) : Code Kernel Bool := do
  setOfile np i none
  let fd := hdr.fds i
  if fd.type = FD_NONE ∨ fd.type = FD_PIPE then pure true
  else do
    let f ← filealloc
    match f with
    | none => pure false
    | some f => do
      setOfile np i (some f)
      setFile f (fun file => { file with
        readable := fd.readable, writable := fd.writable })
      if fd.type ≠ FD_INODE ∧ fd.type ≠ FD_DEVICE then pure false
      else do
        setFile f (fun file => { file with
          type := if fd.type = FD_INODE then .inode else .device })
        let ip ← inFs (igetByInum fd.inum)
        setFile f (fun file => { file with
          ip := ip, off := UInt32.ofNat fd.off, major := fd.major })
        pure true

/-- Run a step for each fd, until one goes to `bad`. -/
def eachFd (body : Fin NOFILE → Code Kernel Bool) : List (Fin NOFILE) → Code Kernel Bool
  | [] => pure true
  | i :: rest => do
    let ok ← body i
    if ok then eachFd body rest else pure false

/-- `iget_by_inum` never returns 0, so the saved number is taken whenever
there is one. -/
def restoreCwd (np : Slot) (hdr : CkptHeader) : Code Kernel Unit := do
  setProc np (fun proc => { proc with cwd := none })
  let ip ← inFs (igetByInum (if hdr.cwdInum ≠ 0 then hdr.cwdInum else ROOTINO))
  setProc np (fun proc => { proc with cwd := some ip })

/-- The search for the other end of the pipe of fd `i`. -/
def pairOf (hdr : CkptHeader) (ofile : Fin NOFILE → Option FileRef)
    (i : Fin NOFILE) : Option (Fin NOFILE) :=
  (List.finRange NOFILE).find? (fun j => decide (i < j ∧
    (hdr.fds j).type = FD_PIPE ∧ (hdr.fds j).pipeId = (hdr.fds i).pipeId ∧ ofile j = none))

/-- The end of a new pipe that a saved entry asks for. -/
def CkptFd.pipeEnd (fd : CkptFd) (ends : FileRef × FileRef) : Option FileRef :=
  if fd.readable ≠ 0 ∧ fd.writable = 0 then some ends.1
  else if fd.readable = 0 ∧ fd.writable ≠ 0 then some ends.2
  else none

/-- Rebuild the pipe of fd `i`, if it is one and not yet rebuilt. -/
def restorePipe (np : Slot) (hdr : CkptHeader) (i : Fin NOFILE) : Code Kernel Bool := do
  let kernel ← read
  if (hdr.fds i).type ≠ FD_PIPE ∨ (kernel.proc np).ofile i ≠ none then
    pure true
  else
    match pairOf hdr (kernel.proc np).ofile i with
    | none => pure false
    | some j => do
      let ends ← pipealloc
      match ends with
      | none => pure false
      | some ends =>
        match (hdr.fds i).pipeEnd ends with
        | none => do
          fileclose ends.1
          fileclose ends.2
          pure false
        | some f => do
          setOfile np i (some f)
          match (hdr.fds j).pipeEnd ends with
          | none => do
            fileclose ends.1
            fileclose ends.2
            setOfile np i none
            pure false
          | some f => do
            setOfile np j (some f)
            pure true

/-- Close fd `i` of a process that is being undone. -/
def closeFd (np : Slot) (i : Fin NOFILE) : Code Kernel Unit := do
  let kernel ← read
  whenSome ((kernel.proc np).ofile i) (fun f => do
    fileclose f
    setOfile np i none)

/-- The end of every path: unlock and put the checkpoint file. -/
def restoreEnd (ip : InodeRef) (result : Option Nat) : Code Kernel (Option Nat) := do
  inFs (iunlockput ip)
  inFs endOp
  pure result

def restoreBad (np : Slot) (ip : InodeRef) : Code Kernel (Option Nat) := do
  forEach (closeFd np) (List.finRange NOFILE)
  let kernel ← read
  whenSome (kernel.proc np).cwd (fun cwd => do
    inFs (iput cwd)
    setProc np (fun proc => { proc with cwd := none }))
  acquire (.proc np)
  freeproc np
  release (.proc np)
  restoreEnd ip none

/-- Load the saved registers into the trapframe; `restore` returns 1. -/
def restoreTrapframe (np : Slot) (hdr : CkptHeader) : Code Kernel Unit := do
  let kernel ← read
  match (kernel.proc np).trapframe with
  | none => .panic "null trapframe"
  | some frame => inMem (setPage frame
      (putLE (blit (kernel.mem.page frame) 0 TRAPFRAMESZ hdr.tf) 112 8 1))

def restoreFinish (np : Slot) (hdr : CkptHeader) (ip : InodeRef) : Code Kernel (Option Nat) := do
  acquire (.proc np)
  restoreTrapframe np hdr
  setProc np (fun proc => { proc with
    name := safestrcpy proc.name 0 hdr.name 16 })
  acquire .wait
  setProc np (fun proc => { proc with parent := some initproc })
  release .wait
  setProc np (fun proc => { proc with state := .RUNNABLE })
  let kernel ← read
  release (.proc np)
  restoreEnd ip (some (kernel.proc np).pid)

/-- Descriptors, current directory and pipes of the new process. -/
def restoreFiles (np : Slot) (hdr : CkptHeader) : Code Kernel Bool := do
  let ok ← eachFd (restoreFd np hdr) (List.finRange NOFILE)
  if ok then do
    restoreCwd np hdr
    eachFd (restorePipe np hdr) (List.finRange NOFILE)
  else pure false

/-- `PTE_W|PTE_R|PTE_X|PTE_U`. -/
def restorePerm : Perm := ⟨true, true, true, true⟩

/-- `restore_proc` once it has a process slot. -/
def restoreInto (np : Slot) (hdr : CkptHeader) (ip : InodeRef) : Code Kernel (Option Nat) := do
  let kernel ← read
  match (kernel.proc np).pagetable with
  | none => .panic "null pagetable"
  | some pt => do
    let grown ← inMem (uvmalloc pt 0 hdr.sz restorePerm)
    setProc np (fun proc => { proc with pagetable := some grown.1 })
    if grown.2 = 0 then restoreBad np ip
    else do
      setProc np (fun proc => { proc with sz := hdr.sz })
      release (.proc np)
      let loaded ← restoreAddrSpace grown.1 ip (pagesOf hdr.sz) 0 HDRSZ
      let ok ← if loaded then restoreFiles np hdr else pure false
      if ok then restoreFinish np hdr ip else restoreBad np ip

def CkptHeader.Valid (hdr : CkptHeader) : Prop :=
  hdr.magic = CKPT_MAGIC ∧ hdr.version = CKPT_VERSION

instance (hdr : CkptHeader) : Decidable hdr.Valid :=
  inferInstanceAs (Decidable (_ ∧ _))

/-- `restore_proc` once it has found the checkpoint file. -/
def restoreFile (ip : InodeRef) : Code Kernel (Option Nat) := do
  inFs (ilock ip)
  let image ← inFs (readi ip (.kernel (fun _ => 0)) 0 HDRSZ)
  let hdr := getHeader image.2
  if image.1 ≠ some HDRSZ ∨ ¬ hdr.Valid then restoreEnd ip none
  else do
    let np ← allocproc
    match np with
    | none => restoreEnd ip none
    | some np => restoreInto np hdr ip

/-- `restore_proc(path)` by process `cur`: the pid, or `none` for -1. -/
def restoreProc (cur : Slot) (path : Name) : Code Kernel (Option Nat) := do
  inFs beginOp
  let kernel ← read
  let ip ← inFs (namei (kernel.proc cur).cwd path)
  match ip with
  | none => do
    inFs endOp
    pure none
  | some ip => restoreFile ip

end CkptKernel
