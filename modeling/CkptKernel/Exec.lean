/-
Calls that change an address space: `kexec` of kernel/exec.c with `sys_exec`,
`sys_sbrk` with `growproc`, `kwait`, `sys_pipe`, and page faults from user space
in `usertrap`.
-/
import CkptKernel.Syscalls
import CkptKernel.UserMemory

namespace CkptKernel

open ByteMem Code

def inVm {A : Type} (p : Slot) (code : Code Vm A) : Code Kernel A := do
  let kernel ← read
  match (kernel.proc p).pagetable with
  | none => .panic "null pagetable"
  | some pt =>
    within (fun kernel => ⟨kernel.mem, (kernel.proc p).sz, pt⟩)
      (fun vm kernel => { kernel with
        mem := vm.mem
        proc := Function.update kernel.proc p { kernel.proc p with
          sz := vm.sz, pagetable := some vm.pagetable } })
      code

def SBRK_EAGER : Int32 := 1
def SBRK_LAZY : Int32 := 2

/-- `sz + n` in 64 bits, with `n` sign-extended. -/
def addSz (sz : Nat) (n : Int32) : Nat :=
  ((sz + n.toInt) % 2 ^ 64).toNat

def permW : Perm := ⟨false, true, false, false⟩

def growproc (n : Int32) : Code Vm Bool := do
  let vm ← read
  if 0 < n then do
    let grown ← onMem (uvmalloc vm.pagetable vm.sz (addSz vm.sz n) permW)
    update (fun vm => { vm with pagetable := grown.1 })
    if grown.2 = 0 then pure false
    else do
      update (fun vm => { vm with sz := grown.2 })
      pure true
  else if n < 0 then do
    let pt ← onMem (uvmdealloc vm.pagetable vm.sz (addSz vm.sz n))
    update (fun vm => { vm with
      pagetable := pt, sz := min vm.sz (addSz vm.sz n) })
    pure true
  else pure true

/-- `sys_sbrk`: the old size, or `none` for -1. -/
def sysSbrk (n t : Int32) : Code Vm (Option Nat) := do
  let vm ← read
  if t = SBRK_EAGER ∨ n < 0 then do
    let ok ← growproc n
    pure (if ok then some vm.sz else none)
  else if addSz vm.sz n < vm.sz then pure none
  else do
    update (fun vm => { vm with sz := addSz vm.sz n })
    pure (some vm.sz)

/-- A page fault from user space on `va`.  A fault that is not on a lazily grown
page kills the process. -/
def usertrapFault (p : Slot) (va : Nat) : Code Kernel Unit := do
  let pa ← inVm p (vmfault none va)
  when (pa = none) do
    setProc p (fun proc => { proc with killed := true })
    kexit p (-1)

/-! ### exec -/

def ELF_MAGIC : Nat := 0x464C457F
def ELF_PROG_LOAD : Nat := 1
def MAXARG : Nat := 32
def USERSTACK : Nat := 1

structure Elfhdr where
  magic : Nat
  entry : Nat
  phoff : Nat
  phnum : Nat

def ELFHDRSZ : Nat := 64

def getElfhdr (mem : Bytes) : Elfhdr where
  magic := getLE mem 0 4
  entry := getLE mem 24 8
  phoff := getLE mem 32 8
  phnum := getLE mem 56 2

structure Proghdr where
  type : Nat
  flags : Nat
  off : Nat
  vaddr : Nat
  filesz : Nat
  memsz : Nat

def PROGHDRSZ : Nat := 56

def getProghdr (mem : Bytes) : Proghdr where
  type := getLE mem 0 4
  flags := getLE mem 4 4
  off := getLE mem 8 8
  vaddr := getLE mem 16 8
  filesz := getLE mem 32 8
  memsz := getLE mem 40 8

def flags2perm (flags : Nat) : Perm :=
  ⟨false, flags / 2 % 2 = 1, flags % 2 = 1, false⟩

def fillPhys (pa : Phys) (bytes : Bytes) : Code Mem Unit :=
  match pa with
  | .frame frame => setPage frame bytes
  -- no user mapping is of the trampoline page
  | .trampoline => pure ()

/-- The loop of `loadseg`: `left` more pages, the next one at `i`.  `offset` and
`sz` are 32-bit numbers. -/
def loadsegFrom (pt : PageTable) (va : Nat) (ip : InodeRef) (offset sz : Nat) :
    Nat → Nat → Code Kernel Bool
  | 0, _ => pure true
  | left + 1, i =>
    match walkaddr pt (va + i) with
    | none => .panic "loadseg: address should exist"
    | some pa => do
      let n := min PGSIZE (sz - i)
      let kernel ← read
      let page ← inFs (readi ip (.kernel (kernel.mem.physBytes pa))
        ((offset + i) % 2 ^ 32) n)
      inMem (fillPhys pa page.2)
      if page.1 ≠ some n then pure false
      else loadsegFrom pt va ip offset sz left (i + PGSIZE)

/-- Load an ELF program segment into a page table at virtual address `va`. -/
def loadseg (pt : PageTable) (va : Nat) (ip : InodeRef) (offset sz : Nat) : Code Kernel Bool :=
  loadsegFrom pt va ip offset sz (pagesOf sz) 0

/-- A page table that `kexec` builds, with its size. -/
structure Image where
  pagetable : PageTable
  sz : Nat

/-- Load one segment; `false` goes to `bad`. -/
def execSegment (ip : InodeRef) (ph : Proghdr) (image : Image) : Code Kernel (Bool × Image) :=
  if ph.type ≠ ELF_PROG_LOAD then pure (true, image)
  else if ph.memsz < ph.filesz then pure (false, image)
  else if 2 ^ 64 ≤ ph.vaddr + ph.memsz then pure (false, image)
  else if ph.vaddr % PGSIZE ≠ 0 then pure (false, image)
  else do
    let grown ← inMem (uvmalloc image.pagetable image.sz (ph.vaddr + ph.memsz)
      (flags2perm ph.flags))
    if grown.2 = 0 then pure (false, ⟨grown.1, image.sz⟩)
    else do
      let ok ← loadseg grown.1 ph.vaddr ip (ph.off % 2 ^ 32)
        (ph.filesz % 2 ^ 32)
      pure (ok, ⟨grown.1, grown.2⟩)

/-- Load program into memory: `left` more headers, the next one at `off`, an
`int`. -/
def execSegments (ip : InodeRef) : Nat → Nat → Image → Code Kernel (Bool × Image)
  | 0, _, image => pure (true, image)
  | left + 1, off, image => do
    let bytes ← inFs (readi ip (.kernel (fun _ => 0)) off PROGHDRSZ)
    if bytes.1 ≠ some PROGHDRSZ then pure (false, image)
    else do
      let loaded ← execSegment ip (getProghdr bytes.2) image
      if loaded.1 then
        execSegments ip left ((off + PROGHDRSZ) % 2 ^ 32) loaded.2
      else pure (false, loaded.2)

/-- Copy argument strings into the new stack, remembering their addresses. -/
def pushArgs (p : Slot) (pt : PageTable) (stackbase : Nat) :
    List Frame → Nat → List Nat → Code Kernel (Option (Nat × List Nat))
  | [], sp, ustack => pure (some (sp, ustack))
  | arg :: rest, sp, ustack =>
    if MAXARG ≤ ustack.length then pure none
    else do
      let kernel ← read
      let len := strlen (kernel.mem.page arg) PGSIZE + 1
      let sp := sp - len
      -- riscv sp must be 16-byte aligned
      let sp := sp - sp % 16
      if sp < stackbase then pure none
      else do
        let ok ← inVm p (copyout (some pt) sp (kernel.mem.page arg) len)
        if ok then pushArgs p pt stackbase rest sp (ustack ++ [sp])
        else pure none

/-- The array of `argv[]` pointers with its terminating 0, as bytes. -/
def ustackBytes (ustack : List Nat) : Bytes :=
  fun i => leByte (ustack.getD (i / 8) 0) (i % 8)

/-- Arguments and argument array on the new stack: `argc` and `sp`. -/
def execStack (p : Slot) (image : Image) (argv : List Frame) :
    Code Kernel (Option (Nat × Nat)) := do
  let stackbase := image.sz - USERSTACK * PGSIZE
  let pushed ← pushArgs p image.pagetable stackbase argv image.sz []
  match pushed with
  | none => pure none
  | some (sp, ustack) => do
    let sp := sp - (ustack.length + 1) * 8
    let sp := sp - sp % 16
    if sp < stackbase then pure none
    else do
      let ok ← inVm p (copyout (some image.pagetable) sp
        (ustackBytes ustack) ((ustack.length + 1) * 8))
      pure (if ok then some (ustack.length, sp) else none)

/-- Assign a 64-bit register in the trapframe of `p`. -/
def setReg (p : Slot) (off value : Nat) : Code Kernel Unit := do
  let kernel ← read
  match (kernel.proc p).trapframe with
  | none => .panic "null trapframe"
  | some frame =>
    inMem (setPage frame (putLE (kernel.mem.page frame) off 8 value))

/-- The program name: what follows the last slash. -/
def lastElem (path : Name) : Name :=
  (path.reverse.takeWhile (fun c => c ≠ slash)).reverse

def cString (name : Name) : Bytes := fun i => name.getD i 0

/-- Commit to the user image.  The old page table may have changed on the way,
the old size is the one from before the stack was allocated. -/
def execCommit (p : Slot) (path : Name) (image : Image) (entry argc sp : Nat) :
    Code Kernel (Option Nat) := do
  setReg p 120 sp
  let kernel ← read
  setProc p (fun proc => { proc with
    name := safestrcpy proc.name 0 (cString (lastElem path)) 16
    pagetable := some image.pagetable
    sz := image.sz })
  setReg p 24 entry
  setReg p 48 sp
  match (kernel.proc p).pagetable with
  | none => .panic "null pagetable"
  | some old => inMem (procFreepagetable old (kernel.proc p).sz)
  pure (some argc)

def execBad (image : Image) : Code Kernel (Option Nat) := do
  inMem (procFreepagetable image.pagetable image.sz)
  pure none

/-- `kexec` once the program is in memory. -/
def execRun (p : Slot) (path : Name) (argv : List Frame) (image : Image)
    (entry : Nat) : Code Kernel (Option Nat) := do
  let sz := pagesOf image.sz * PGSIZE
  let grown ← inMem (uvmalloc image.pagetable sz
    (sz + (USERSTACK + 1) * PGSIZE) permW)
  if grown.2 = 0 then execBad ⟨grown.1, sz⟩
  else do
    -- the first page is inaccessible, as a stack guard
    let pt ← inMem (uvmclear grown.1 (grown.2 - (USERSTACK + 1) * PGSIZE))
    let image : Image := ⟨pt, grown.2⟩
    let stack ← execStack p image argv
    match stack with
    | none => execBad image
    | some (argc, sp) => execCommit p path image entry argc sp

/-- The error exits of `kexec` with the file locked. -/
def execEnd (ip : InodeRef) : Code Kernel (Option Nat) := do
  inFs (iunlockput ip)
  inFs endOp
  pure none

/-- `kexec` once it has read the ELF header. -/
def execLoad (p : Slot) (path : Name) (argv : List Frame) (ip : InodeRef)
    (elf : Elfhdr) : Code Kernel (Option Nat) := do
  let kernel ← read
  match (kernel.proc p).trapframe with
  | none => .panic "null trapframe"
  | some trapframe => do
    let pt ← inMem (procPagetable trapframe)
    match pt with
    | none => execEnd ip
    | some pt => do
      let loaded ← execSegments ip elf.phnum (elf.phoff % 2 ^ 32) ⟨pt, 0⟩
      if loaded.1 then do
        inFs (iunlockput ip)
        inFs endOp
        execRun p path argv loaded.2 elf.entry
      else do
        inMem (procFreepagetable loaded.2.pagetable loaded.2.sz)
        execEnd ip

/-- The implementation of the exec() system call: `argc`, or `none` for -1.
The argument strings are in pages of their own. -/
def kexec (p : Slot) (path : Name) (argv : List Frame) : Code Kernel (Option Nat) := do
  inFs beginOp
  let kernel ← read
  let ip ← inFs (namei (kernel.proc p).cwd path)
  match ip with
  | none => do
    inFs endOp
    pure none
  | some ip => do
    inFs (ilock ip)
    let bytes ← inFs (readi ip (.kernel (fun _ => 0)) 0 ELFHDRSZ)
    let elf := getElfhdr bytes.2
    if bytes.1 ≠ some ELFHDRSZ ∨ elf.magic ≠ ELF_MAGIC then execEnd ip
    else execLoad p path argv ip elf

/-- Fetch the uint64 at `addr` from the current process. -/
def fetchaddr (addr : Nat) : Code Vm (Option Nat) := do
  let vm ← read
  if vm.sz ≤ addr ∨ vm.sz < (addr + 8) % 2 ^ 64 then pure none
  else do
    let word ← copyin none (fun _ => 0) addr 8
    pure (if word.1 then some (getLE word.2 0 8) else none)

/-- Fetch the argument strings, each into a page: `left` more places in `argv`,
the next one `argv.length`. -/
def fetchArgs (p : Slot) (uargv : Nat) : Nat → List Frame → Code Kernel (Bool × List Frame)
  | 0, argv => pure (false, argv)
  | left + 1, argv => do
    let uarg ← inVm p (fetchaddr ((uargv + 8 * argv.length) % 2 ^ 64))
    match uarg with
    | none => pure (false, argv)
    | some uarg =>
      if uarg = 0 then pure (true, argv)
      else do
        let page ← inMem kalloc
        match page with
        | none => pure (false, argv)
        | some page => do
          let kernel ← read
          let str ← inVm p (copyinstr none (kernel.mem.page page) uarg
            PGSIZE)
          inMem (setPage page str.2)
          if str.1 then fetchArgs p uargv left (argv ++ [page])
          else pure (false, argv ++ [page])

def sysExec (p : Slot) (path : Name) (uargv : Nat) : Code Kernel (Option Nat) := do
  let argv ← fetchArgs p uargv MAXARG []
  let result ← if argv.1 then kexec p path argv.2 else pure none
  forEach (fun page => inMem (kfree (.frame page))) argv.2
  pure result

/-! ### wait and pipe -/

def intBytes (value : Int) : Bytes := leByte (value % 2 ^ 32).toNat

/-- Reap the zombie `pp`: its pid, or `none` if its status cannot be stored. -/
def kwaitReap (p pp : Slot) (addr : Nat) : Code Kernel (Option Nat) := do
  let kernel ← read
  let ok ← if addr ≠ 0 then
      inVm p (copyout none addr (intBytes (kernel.proc pp).xstate) 4)
    else pure true
  if ok then do
    freeproc pp
    release (.proc pp)
    release .wait
    pure (some (kernel.proc pp).pid)
  else do
    release (.proc pp)
    release .wait
    pure none

/-- Scan through table looking for exited children. -/
def kwaitFrom (p : Slot) (addr : Nat) : List Slot → Bool → Code Kernel (Option Nat)
  | [], havekids => do
    let kernel ← read
    -- no point waiting if we don't have any children
    if havekids = false ∨ (kernel.proc p).killed then do
      release .wait
      pure none
    else .stop .sleep
  | pp :: rest, havekids => do
    let kernel ← read
    if (kernel.proc pp).parent = some p then do
      acquire (.proc pp)
      if (kernel.proc pp).state = .ZOMBIE then kwaitReap p pp addr
      else do
        release (.proc pp)
        kwaitFrom p addr rest true
    else kwaitFrom p addr rest havekids

/-- Wait for a child process to exit and return its pid. -/
def kwait (p : Slot) (addr : Nat) : Code Kernel (Option Nat) := do
  acquire .wait
  kwaitFrom p addr (List.finRange NPROC) false

/-- Undo `sys_pipe`: the descriptors first, then the files. -/
def pipeUndo (p : Slot) (fds : List (Fin NOFILE)) (rf wf : FileRef) : Code Kernel Bool := do
  forEach (fun fd => setOfile p fd none) fds
  fileclose rf
  fileclose wf
  pure false

def sysPipe (p : Slot) (fdarray : Nat) : Code Kernel Bool := do
  let files ← pipealloc
  match files with
  | none => pure false
  | some (rf, wf) => do
    let fd0 ← fdalloc p rf
    match fd0 with
    | none => pipeUndo p [] rf wf
    | some fd0 => do
      let fd1 ← fdalloc p wf
      match fd1 with
      | none => pipeUndo p [fd0] rf wf
      | some fd1 => do
        let ok ← inVm p (copyout none fdarray (intBytes fd0.val) 4)
        let ok ← if ok then
            inVm p (copyout none ((fdarray + 4) % 2 ^ 64)
              (intBytes fd1.val) 4)
          else pure false
        if ok then pure true
        else pipeUndo p [fd0, fd1] rf wf

end CkptKernel
