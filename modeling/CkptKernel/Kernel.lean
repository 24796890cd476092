/-
The kernel's tables and the code that keeps them: kernel/file.c, kernel/pipe.c
and the allocation of processes in kernel/proc.c.  One process runs at a time;
sleep and wakeup have no part in what is modelled here.
-/
import CkptKernel.Directory
import CkptKernel.Memory

namespace CkptKernel

open ByteMem Code

abbrev FileRef := Fin NFILE

/-- `struct file`.  `pipe` is meant for pipes, `ip` for inodes and devices. -/
structure File where
  type : FileType
  ref : Nat
  readable : UInt8
  writable : UInt8
  pipe : Frame
  ip : InodeRef
  off : UInt32
  major : UInt16
deriving DecidableEq, Repr

/-- The ends of a `struct pipe`, which lives in a page of its own. -/
structure Pipe where
  readopen : Bool
  writeopen : Bool
deriving DecidableEq, Repr

structure Proc where
  state : ProcState
  killed : Bool
  xstate : Int
  pid : Nat
  parent : Option Slot
  sz : Nat
  pagetable : Option PageTable
  trapframe : Option Frame
  ofile : Fin NOFILE → Option FileRef
  cwd : Option InodeRef
  name : Bytes

structure Kernel where
  fs : Fs
  mem : Mem
  file : FileRef → File
  /-- The pipes that have not been freed. -/
  pipe : Frame → Option Pipe
  proc : Slot → Proc
  nextpid : Nat
  /-- Spinlocks of the process table that this CPU holds. -/
  held : Lock → Bool

/-- File system code in the kernel. -/
def inFs {A : Type} (code : Code Fs A) : Code Kernel A :=
  within Kernel.fs (fun fs kernel => { kernel with fs := fs }) code

def inMem {A : Type} (code : Code Mem A) : Code Kernel A :=
  within Kernel.mem (fun mem kernel => { kernel with mem := mem }) code

/-- `acquire`: panics if this CPU holds the lock already. -/
def acquire (lock : Lock) : Code Kernel Unit := do
  let kernel ← read
  if kernel.held lock then .panic "acquire"
  else update (fun kernel =>
    { kernel with held := Function.update kernel.held lock true })

def release (lock : Lock) : Code Kernel Unit := do
  let kernel ← read
  if kernel.held lock then update (fun kernel =>
    { kernel with held := Function.update kernel.held lock false })
  else .panic "release"

def setFile (f : FileRef) (change : File → File) : Code Kernel Unit :=
  update (fun kernel => { kernel with
    file := Function.update kernel.file f (change (kernel.file f)) })

def setPipe (pi : Frame) (pipe : Option Pipe) : Code Kernel Unit :=
  update (fun kernel => { kernel with
    pipe := Function.update kernel.pipe pi pipe })

def setProc (p : Slot) (change : Proc → Proc) : Code Kernel Unit :=
  update (fun kernel => { kernel with
    proc := Function.update kernel.proc p (change (kernel.proc p)) })

def setOfile (p : Slot) (fd : Fin NOFILE) (f : Option FileRef) : Code Kernel Unit :=
  setProc p (fun proc => { proc with
    ofile := Function.update proc.ofile fd f })

def filealloc : Code Kernel (Option FileRef) := do
  let kernel ← read
  match (List.finRange NFILE).find? (fun f =>
      decide ((kernel.file f).ref = 0)) with
  | none => pure none
  | some f => do
    setFile f (fun file => { file with ref := 1 })
    pure (some f)

def filedup (f : FileRef) : Code Kernel Unit := do
  let kernel ← read
  if (kernel.file f).ref < 1 then .panic "filedup"
  else setFile f (fun file => { file with ref := file.ref + 1 })

/-- `pipeclose`: the page goes back when both ends are closed.  The source
does not check that the pipe is still there; the model stops if it is not. -/
def pipeclose (pi : Frame) (writable : Bool) : Code Kernel Unit := do
  let kernel ← read
  match kernel.pipe pi with
  | none => .panic "pipe used after free"
  | some pipe =>
    let pipe := if writable then { pipe with writeopen := false }
      else { pipe with readopen := false }
    if pipe.readopen = false ∧ pipe.writeopen = false then do
      setPipe pi none
      inMem (kfree (.frame pi))
    else setPipe pi (some pipe)

/-- Close file `f`: decrement ref count, close when it reaches 0. -/
def fileclose (f : FileRef) : Code Kernel Unit := do
  let kernel ← read
  let file := kernel.file f
  if file.ref < 1 then .panic "fileclose"
  else if 1 < file.ref then
    setFile f (fun file => { file with ref := file.ref - 1 })
  else do
    setFile f (fun file => { file with ref := 0, type := .none })
    match file.type with
    | .none => pure ()
    | .pipe => pipeclose file.pipe (file.writable ≠ 0)
    | .inode | .device => do
      inFs beginOp
      inFs (iput file.ip)
      inFs endOp

/-- `pipealloc`: the read end and the write end. -/
def pipealloc : Code Kernel (Option (FileRef × FileRef)) := do
  let f0 ← filealloc
  match f0 with
  | none => pure none
  | some f0 => do
    let f1 ← filealloc
    match f1 with
    | none => do
      fileclose f0
      pure none
    | some f1 => do
      let pi ← inMem kalloc
      match pi with
      | none => do
        fileclose f0
        fileclose f1
        pure none
      | some pi => do
        setPipe pi (some ⟨true, true⟩)
        setFile f0 (fun file => { file with
          type := .pipe, readable := 1, writable := 0, pipe := pi })
        setFile f1 (fun file => { file with
          type := .pipe, readable := 0, writable := 1, pipe := pi })
        pure (some (f0, f1))

/-- Free a proc structure and the data hanging from it, including user pages.
-/
def freeproc (p : Slot) : Code Kernel Unit := do
  let kernel ← read
  whenSome (kernel.proc p).trapframe (fun frame => inMem (kfree (.frame frame)))
  setProc p (fun proc => { proc with trapframe := none })
  whenSome (kernel.proc p).pagetable (fun pt =>
    inMem (procFreepagetable pt (kernel.proc p).sz))
  setProc p (fun proc => { proc with
    pagetable := none
    sz := 0
    pid := 0
    parent := none
    name := Function.update proc.name 0 0
    killed := false
    xstate := 0
    state := .UNUSED })

def allocpid : Code Kernel Nat := do
  let kernel ← read
  update (fun kernel => { kernel with nextpid := kernel.nextpid + 1 })
  pure kernel.nextpid

def allocprocFound (p : Slot) : Code Kernel (Option Slot) := do
  let pid ← allocpid
  setProc p (fun proc => { proc with pid := pid, state := .USED })
  let trapframe ← inMem kalloc
  setProc p (fun proc => { proc with trapframe := trapframe })
  match trapframe with
  | none => do
    freeproc p
    release (.proc p)
    pure none
  | some trapframe => do
    let pagetable ← inMem (procPagetable trapframe)
    setProc p (fun proc => { proc with pagetable := pagetable })
    match pagetable with
    | none => do
      freeproc p
      release (.proc p)
      pure none
    | some _ => pure (some p)

/-- The search of `allocproc` over the slots that are left. -/
def allocprocFrom : List Slot → Code Kernel (Option Slot)
  | [] => pure none
  | p :: rest => do
    acquire (.proc p)
    let kernel ← read
    if (kernel.proc p).state = .UNUSED then allocprocFound p
    else do
      release (.proc p)
      allocprocFrom rest

/-- Look in the process table for an UNUSED proc.  If found, initialize it and
return with `p->lock` held. -/
def allocproc : Code Kernel (Option Slot) := allocprocFrom (List.finRange NPROC)

end CkptKernel
