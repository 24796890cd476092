/-
The kernel's access to user memory: `vmfault`, `copyin`, `copyout` and
`copyinstr` of kernel/vm.c.  Pages of a lazily grown process are allocated when
they are first touched.
-/
import CkptKernel.Checkpoint

namespace CkptKernel

open ByteMem Code

/-- Physical memory with the size and the page table of the running process. -/
structure Vm where
  mem : Mem
  sz : Nat
  pagetable : PageTable

/-- Memory management code on behalf of the running process. -/
def onMem {A : Type} (code : Code Mem A) : Code Vm A :=
  within Vm.mem (fun mem vm => { vm with mem := mem }) code

/-- A page table argument: `none` stands for `p->pagetable`. -/
def Vm.table (vm : Vm) (arg : Option PageTable) : PageTable :=
  arg.getD vm.pagetable

def PGROUNDDOWN (va : Nat) : Nat := va / PGSIZE * PGSIZE

def faultPerm : Perm := ⟨true, true, false, true⟩

/-- Allocate and map user memory if the process is referencing a page that was
lazily allocated: the physical page, or `none` for 0.  Whether the page is
mapped is looked up in the argument; it is the process's own page table that
gets the page. -/
def vmfault (arg : Option PageTable) (va : Nat) : Code Vm (Option Phys) := do
  let vm ← read
  if vm.sz ≤ va then pure none
  else do
    let there ← onMem (ismapped (vm.table arg) (PGROUNDDOWN va))
    if there then pure none
    else do
      let frame ← onMem kalloc
      match frame with
      | none => pure none
      | some frame => do
        onMem (setPage frame (fun _ => 0))
        let mapped ← onMem (mappages vm.pagetable (PGROUNDDOWN va)
          (.frame frame) faultPerm)
        update (fun vm => { vm with pagetable := mapped.1 })
        if mapped.2 then pure (some (.frame frame))
        else do
          onMem (kfree (.frame frame))
          pure none

/-- The physical page of `va0`, which is faulted in if it is not mapped. -/
def userPage (arg : Option PageTable) (va0 : Nat) : Code Vm (Option Phys) := do
  let vm ← read
  match walkaddr (vm.table arg) va0 with
  | some pa0 => pure (some pa0)
  | none => vmfault arg va0

def setPhys (pa : Phys) (off count : Nat) (src : Bytes) : Code Mem Unit :=
  match pa with
  | .frame frame => do
    let mem ← read
    setPage frame (blit (mem.page frame) off count src)
  -- no user mapping is of the trampoline page
  | .trampoline => pure ()

/-- The loop of `copyout`.  Every iteration copies a byte or more, so `len` of
them are enough. -/
def copyoutFrom (arg : Option PageTable) : Nat → Nat → Bytes → Nat → Code Vm Bool
  | 0, _, _, _ => pure true
  | fuel + 1, dstva, src, len =>
    if len = 0 then pure true
    else if MAXVA ≤ PGROUNDDOWN dstva then pure false
    else do
      let pa0 ← userPage arg (PGROUNDDOWN dstva)
      match pa0 with
      | none => pure false
      | some pa0 => do
        let vm ← read
        let pte ← onMem (walk (vm.table arg) (PGROUNDDOWN dstva))
        -- forbid copyout over read-only user text pages
        if pte.any (fun pte => pte.perm.w) then do
          let n := min (PGSIZE - dstva % PGSIZE) len
          onMem (setPhys pa0 (dstva % PGSIZE) n src)
          copyoutFrom arg fuel (PGROUNDDOWN dstva + PGSIZE)
            (fun i => src (n + i)) (len - n)
        else pure false

/-- Copy `len` bytes from `src` to virtual address `dstva` in a given page
table. -/
def copyout (arg : Option PageTable) (dstva : Nat) (src : Bytes) (len : Nat) : Code Vm Bool :=
  copyoutFrom arg len dstva src len

/-- The loop of `copyin`, with `dst + off` the place of the next byte. -/
def copyinFrom (arg : Option PageTable) : Nat → Bytes → Nat → Nat → Nat → Code Vm (Bool × Bytes)
  | 0, dst, _, _, _ => pure (true, dst)
  | fuel + 1, dst, off, srcva, len =>
    if len = 0 then pure (true, dst)
    else do
      let pa0 ← userPage arg (PGROUNDDOWN srcva)
      match pa0 with
      | none => pure (false, dst)
      | some pa0 => do
        let vm ← read
        let n := min (PGSIZE - srcva % PGSIZE) len
        copyinFrom arg fuel (blit dst off n
            (fun i => vm.mem.physBytes pa0 (srcva % PGSIZE + i)))
          (off + n) (PGROUNDDOWN srcva + PGSIZE) (len - n)

/-- Copy `len` bytes to `dst` from virtual address `srcva` in a given page
table: whether all were copied, and the buffer. -/
def copyin (arg : Option PageTable) (dst : Bytes) (srcva len : Nat) : Code Vm (Bool × Bytes) :=
  copyinFrom arg len dst 0 srcva len

/-- The loop of `copyinstr`, with `dst + off` the place of the next byte. -/
def copyinstrFrom (arg : Option PageTable) : Nat → Bytes → Nat → Nat → Nat → Code Vm (Bool × Bytes)
  | 0, dst, _, _, _ => pure (false, dst)
  | fuel + 1, dst, off, srcva, max =>
    if max = 0 then pure (false, dst)
    else do
      let vm ← read
      match walkaddr (vm.table arg) (PGROUNDDOWN srcva) with
      | none => pure (false, dst)
      | some pa0 =>
        let src := fun i => vm.mem.physBytes pa0 (srcva % PGSIZE + i)
        let n := min (PGSIZE - srcva % PGSIZE) max
        let len := strlen src n
        if len < n then
          pure (true, Function.update (blit dst off len src) (off + len) 0)
        else
          copyinstrFrom arg fuel (blit dst off n src) (off + n)
            (PGROUNDDOWN srcva + PGSIZE) (max - n)

/-- Copy a null-terminated string from user to kernel: bytes to `dst` from
virtual address `srcva`, until a NUL, or `max`. -/
def copyinstr (arg : Option PageTable) (dst : Bytes) (srcva max : Nat) : Code Vm (Bool × Bytes) :=
  copyinstrFrom arg max dst 0 srcva max

end CkptKernel
