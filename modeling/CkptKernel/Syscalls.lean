/-
System calls on files and processes: kernel/sysfile.c, `filewrite` of
kernel/file.c with its back ends, and `userinit`, `kfork` and `kexit` of kernel/proc.c.  Arguments
have been fetched from user space already; `none` and `false` stand for -1.
-/
import CkptKernel.Checkpoint

namespace CkptKernel

open ByteMem Code

def argfd (p : Slot) (fd : Nat) : Code Kernel (Option (Fin NOFILE × FileRef)) := do
  let kernel ← read
  if h : fd < NOFILE then
    pure (((kernel.proc p).ofile ⟨fd, h⟩).map (fun f => (⟨fd, h⟩, f)))
  else pure none

/-- Allocate a file descriptor for the given file. -/
def fdalloc (p : Slot) (f : FileRef) : Code Kernel (Option (Fin NOFILE)) := do
  let kernel ← read
  match (List.finRange NOFILE).find? (fun fd =>
      decide ((kernel.proc p).ofile fd = none)) with
  | none => pure none
  | some fd => do
    setOfile p fd (some f)
    pure (some fd)

def sysDup (p : Slot) (fd : Nat) : Code Kernel (Option (Fin NOFILE)) := do
  let arg ← argfd p fd
  match arg with
  | none => pure none
  | some (_, f) => do
    let new ← fdalloc p f
    match new with
    | none => pure none
    | some new => do
      filedup f
      pure (some new)

def sysClose (p : Slot) (fd : Nat) : Code Kernel Bool := do
  let arg ← argfd p fd
  match arg with
  | none => pure false
  | some (fd, f) => do
    setOfile p fd none
    fileclose f
    pure true

/-- `max` of `filewrite`: the bytes that one transaction may write. -/
def writeMax : Nat := (MAXOPBLOCKS - 1 - 1 - 2) / 2 * BSIZE

/-- The loop of `filewrite` on an inode; `buf i` is what is found at user
address `addr + i`.  The result is how much has been written. -/
def filewriteFrom (f : FileRef) (buf : Nat → Buffer) (n : Nat) : Nat → Nat → Code Kernel Nat
  | 0, i => pure i
  | fuel + 1, i =>
    if i < n then do
      let n1 := min (n - i) writeMax
      inFs beginOp
      let kernel ← read
      inFs (ilock (kernel.file f).ip)
      let r ← inFs (writei (kernel.file f).ip (buf i)
        (kernel.file f).off.toNat n1)
      setFile f (fun file => { file with
        off := file.off + UInt32.ofNat (r.getD 0) })
      inFs (iunlock (kernel.file f).ip)
      inFs endOp
      if r ≠ some n1 then pure i
      else filewriteFrom f buf n fuel (i + n1)
    else pure i

/-- The loop of `pipewrite`: `left` more bytes to write, `i` written, and `room`
bytes fit into the pipe.  The bytes in a pipe are not part of this state, and no
process of it sleeps, so `wakeup` finds none. -/
def pipewriteFrom (p : Slot) (pi : Frame) (buf : Nat → Buffer) (room : Nat) :
    Nat → Nat → Code Kernel Int
  | 0, i => pure i
  | left + 1, i => do
    let kernel ← read
    if (kernel.pipe pi).all (·.readopen = false) ∨ (kernel.proc p).killed then pure (-1)
    else if i = room then stop .sleep
    else if (buf i).copied 0 1 < 1 then pure i
    else pipewriteFrom p pi buf room left (i + 1)

/-- The loop of `consolewrite`: how much it passes on to the uart. -/
def consolewriteFrom (buf : Nat → Buffer) (n : Nat) : Nat → Nat → Nat
  | 0, i => i
  | fuel + 1, i =>
    if i < n then
      let nn := min 32 (n - i)
      if (buf i).copied 0 nn < nn then i else consolewriteFrom buf n fuel (i + nn)
    else i

/-- Write to file `f`.  Of the devices only the console has a `write` function. -/
def filewrite (p : Slot) (f : FileRef) (buf : Nat → Buffer) (n : Int) (room : Nat) :
    Code Kernel Int := do
  let kernel ← read
  if (kernel.file f).writable = 0 then pure (-1)
  else
    match (kernel.file f).type with
    | .pipe => pipewriteFrom p (kernel.file f).pipe buf room n.toNat 0
    | .device =>
      if (kernel.file f).major = CONSOLE then pure (consolewriteFrom buf n.toNat n.toNat 0)
      else pure (-1)
    | .inode => do
      let i ← filewriteFrom f buf n.toNat n.toNat 0
      pure (if i = n then n else -1)
    | .none => .panic "filewrite"

def sysWrite (p : Slot) (fd : Nat) (buf : Nat → Buffer) (n : Int) (room : Nat) :
    Code Kernel Int := do
  let arg ← argfd p fd
  match arg with
  | none => pure (-1)
  | some (_, f) => filewrite p f buf n room

def inOp {A : Type} (code : Code Fs A) : Code Kernel A := do
  inFs beginOp
  let result ← inFs code
  inFs endOp
  pure result

def linkBad (ip : InodeRef) : Code Fs Bool := do
  ilock ip
  setCopy ip (fun dn => { dn with nlink := dn.nlink - 1 })
  iupdate ip
  iunlockput ip
  pure false

/-- `sys_link` once the old inode has one link more. -/
def linkName (cwd : Option InodeRef) (ip : InodeRef) (new : Name) : Code Fs Bool := do
  let found ← nameiparent cwd new
  match found with
  | none => linkBad ip
  | some (dp, name) => do
    ilock dp
    let fs ← read
    let linked ← dirlink dp name (fs.inode ip).inum
    iunlockput dp
    if linked then do
      iput ip
      pure true
    else linkBad ip

def link (cwd : Option InodeRef) (old new : Name) : Code Fs Bool := do
  let found ← namei cwd old
  match found with
  | none => pure false
  | some ip => do
    ilock ip
    let fs ← read
    if (fs.inode ip).copy.type = T_DIR then do
      iunlockput ip
      pure false
    else do
      setCopy ip (fun dn => { dn with nlink := dn.nlink + 1 })
      iupdate ip
      iunlock ip
      linkName cwd ip new

/-- `ip->nlink < 1`; the field is a signed short. -/
def Dinode.Unlinked (dn : Dinode) : Prop :=
  dn.nlink = 0 ∨ 0x8000 ≤ dn.nlink

instance (dn : Dinode) : Decidable dn.Unlinked :=
  inferInstanceAs (Decidable (_ ∨ _))

/-- `sys_unlink` once both inodes are locked and the entry may go. -/
def unlinkEntry (dp ip : InodeRef) (off : Nat) : Code Fs Bool := do
  let written ← writei dp (.kernel (fun _ => 0)) off DIRENT
  if written ≠ some DIRENT then .panic "unlink: writei"
  else do
    let fs ← read
    when ((fs.inode ip).copy.type = T_DIR) do
      setCopy dp (fun dn => { dn with nlink := dn.nlink - 1 })
      iupdate dp
    iunlockput dp
    setCopy ip (fun dn => { dn with nlink := dn.nlink - 1 })
    iupdate ip
    iunlockput ip
    pure true

/-- A directory that is not empty may not be unlinked. -/
def mayUnlink (ip : InodeRef) : Code Fs Bool := do
  let fs ← read
  if (fs.inode ip).copy.type = T_DIR then isdirempty ip else pure true

def unlink (cwd : Option InodeRef) (path : Name) : Code Fs Bool := do
  let found ← nameiparent cwd path
  match found with
  | none => pure false
  | some (dp, name) => do
    ilock dp
    if namecmp name dotName ∨ namecmp name dotdotName then do
      iunlockput dp
      pure false
    else do
      let entry ← dirlookup dp name
      match entry with
      | none => do
        iunlockput dp
        pure false
      | some (ip, off) => do
        ilock ip
        let fs ← read
        if (fs.inode ip).copy.Unlinked then .panic "unlink: nlink < 1"
        else do
          let free ← mayUnlink ip
          if free then unlinkEntry dp ip off
          else do
            iunlockput ip
            iunlockput dp
            pure false

/-- The transaction of `sys_mkdir` and `sys_mknod`. -/
def make (cwd : Option InodeRef) (path : Name) (type major minor : UInt16) : Code Fs Bool := do
  let ip ← create cwd path type major minor
  match ip with
  | none => pure false
  | some ip => do
    iunlockput ip
    pure true

def sysLink (p : Slot) (old new : Name) : Code Kernel Bool := do
  let kernel ← read
  inOp (link (kernel.proc p).cwd old new)

def sysUnlink (p : Slot) (path : Name) : Code Kernel Bool := do
  let kernel ← read
  inOp (unlink (kernel.proc p).cwd path)

def sysMkdir (p : Slot) (path : Name) : Code Kernel Bool := do
  let kernel ← read
  inOp (make (kernel.proc p).cwd path T_DIR 0 0)

def sysMknod (p : Slot) (path : Name) (major minor : UInt16) : Code Kernel Bool := do
  let kernel ← read
  inOp (make (kernel.proc p).cwd path T_DEVICE major minor)

def iputCwd (cwd : Option InodeRef) : Code Fs Unit :=
  match cwd with
  | none => .panic "null cwd"
  | some cwd => iput cwd

def sysChdir (p : Slot) (path : Name) : Code Kernel Bool := do
  inFs beginOp
  let kernel ← read
  let found ← inFs (namei (kernel.proc p).cwd path)
  match found with
  | none => do
    inFs endOp
    pure false
  | some ip => do
    inFs (ilock ip)
    let kernel ← read
    if (kernel.fs.inode ip).copy.type ≠ T_DIR then do
      inFs (iunlockput ip)
      inFs endOp
      pure false
    else do
      inFs (iunlock ip)
      inFs (iputCwd (kernel.proc p).cwd)
      inFs endOp
      setProc p (fun proc => { proc with cwd := some ip })
      pure true

def openInode (cwd : Option InodeRef) (path : Name) (omode : UInt32) : Code Fs (Option InodeRef) :=
  if omode &&& O_CREATE ≠ 0 then create cwd path T_FILE 0 0
  else do
    let found ← namei cwd path
    match found with
    | none => pure none
    | some ip => do
      ilock ip
      let fs ← read
      if (fs.inode ip).copy.type = T_DIR ∧ omode ≠ O_RDONLY then do
        iunlockput ip
        pure none
      else pure (some ip)

/-- The error exits of `sys_open` with the inode locked. -/
def openFail (ip : InodeRef) : Code Kernel (Option (Fin NOFILE)) := do
  inFs (iunlockput ip)
  inFs endOp
  pure none

/-- What `sys_open` assigns to the new `struct file`. -/
def File.opened (file : File) (ip : InodeRef) (dn : Dinode) (omode : UInt32) : File :=
  let file := if dn.type = T_DEVICE then
      { file with type := .device, major := dn.major }
    else { file with type := .inode, off := 0 }
  { file with
    ip := ip
    readable := if omode &&& O_WRONLY = 0 then 1 else 0
    writable := if omode &&& O_WRONLY ≠ 0 ∨ omode &&& O_RDWR ≠ 0 then 1
      else 0 }

/-- `sys_open` once it has an inode, a file and a descriptor. -/
def openFile (f : FileRef) (fd : Fin NOFILE) (ip : InodeRef)
    (omode : UInt32) : Code Kernel (Option (Fin NOFILE)) := do
  let kernel ← read
  let dn := (kernel.fs.inode ip).copy
  setFile f (fun file => file.opened ip dn omode)
  when (omode &&& O_TRUNC ≠ 0 ∧ dn.type = T_FILE) (inFs (itrunc ip))
  inFs (iunlock ip)
  inFs endOp
  pure (some fd)

def openWith (p : Slot) (ip : InodeRef) (omode : UInt32) : Code Kernel (Option (Fin NOFILE)) := do
  let kernel ← read
  let dn := (kernel.fs.inode ip).copy
  -- a negative major is at least `NDEV` as an unsigned number
  if dn.type = T_DEVICE ∧ NDEV ≤ dn.major.toNat then openFail ip
  else do
    let f ← filealloc
    match f with
    | none => openFail ip
    | some f => do
      let fd ← fdalloc p f
      match fd with
      | none => do
        fileclose f
        openFail ip
      | some fd => openFile f fd ip omode

def sysOpen (p : Slot) (path : Name) (omode : UInt32) : Code Kernel (Option (Fin NOFILE)) := do
  inFs beginOp
  let kernel ← read
  let ip ← inFs (openInode (kernel.proc p).cwd path omode)
  match ip with
  | none => do
    inFs endOp
    pure none
  | some ip => openWith p ip omode

def userinit : Code Kernel Unit := do
  let p ← allocproc
  match p with
  | none => .panic "null process"
  | some p => do
    let ip ← inFs (namei none [slash])
    setProc p (fun proc => { proc with cwd := ip, state := .RUNNABLE })
    release (.proc p)

def forkFd (p np : Slot) (i : Fin NOFILE) : Code Kernel Unit := do
  let kernel ← read
  whenSome ((kernel.proc p).ofile i) (fun f => do
    filedup f
    setOfile np i (some f))

/-- Copy the registers of `p`; fork returns 0 in the child. -/
def forkTrapframe (p np : Slot) : Code Kernel Unit := do
  let kernel ← read
  match (kernel.proc p).trapframe, (kernel.proc np).trapframe with
  | some old, some new => inMem (setPage new
      (putLE (blit (kernel.mem.page new) 0 TRAPFRAMESZ (kernel.mem.page old))
        112 8 0))
  | _, _ => .panic "null trapframe"

def forkCwd (p np : Slot) : Code Kernel Unit := do
  let kernel ← read
  match (kernel.proc p).cwd with
  | none => .panic "null cwd"
  | some cwd => do
    let cwd ← inFs (idup cwd)
    setProc np (fun proc => { proc with cwd := some cwd })

/-- `kfork` once the child has a copy of the memory. -/
def forkFinish (p np : Slot) : Code Kernel (Option Nat) := do
  let kernel ← read
  setProc np (fun proc => { proc with sz := (kernel.proc p).sz })
  forkTrapframe p np
  forEach (forkFd p np) (List.finRange NOFILE)
  forkCwd p np
  setProc np (fun proc => { proc with
    name := safestrcpy proc.name 0 (kernel.proc p).name 16 })
  release (.proc np)
  acquire .wait
  setProc np (fun proc => { proc with parent := some p })
  release .wait
  acquire (.proc np)
  setProc np (fun proc => { proc with state := .RUNNABLE })
  release (.proc np)
  pure (some (kernel.proc np).pid)

/-- Create a new process, copying the parent: the child's pid. -/
def kfork (p : Slot) : Code Kernel (Option Nat) := do
  let np ← allocproc
  match np with
  | none => pure none
  | some np => do
    let kernel ← read
    match (kernel.proc p).pagetable, (kernel.proc np).pagetable with
    | some old, some new => do
      let copied ← inMem (uvmcopy old new (kernel.proc p).sz)
      setProc np (fun proc => { proc with pagetable := some copied.1 })
      if copied.2 then forkFinish p np
      else do
        freeproc np
        release (.proc np)
        pure none
    | _, _ => .panic "null pagetable"

def reparent (p : Slot) : Code Kernel Unit :=
  update (fun kernel => { kernel with
    proc := fun q => if (kernel.proc q).parent = some p then
        { kernel.proc q with parent := some initproc }
      else kernel.proc q })

/-- Exit the current process.  The scheduler releases `p->lock` for it. -/
def kexit (p : Slot) (status : Int) : Code Kernel Unit :=
  if p = initproc then .panic "init exiting"
  else do
    forEach (closeFd p) (List.finRange NOFILE)
    inFs beginOp
    let kernel ← read
    inFs (iputCwd (kernel.proc p).cwd)
    inFs endOp
    setProc p (fun proc => { proc with cwd := none })
    acquire .wait
    reparent p
    acquire (.proc p)
    setProc p (fun proc => { proc with xstate := status, state := .ZOMBIE })
    release .wait
    release (.proc p)

end CkptKernel
