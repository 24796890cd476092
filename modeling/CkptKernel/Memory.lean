/-
Physical pages and user page tables: kernel/kalloc.c and kernel/vm.c in the
configuration the build selects (`LAB_SYSCALL`, so pages are neither filled
with junk nor cleared by the allocator).
-/
import Mathlib.Data.List.FinRange
import CkptKernel.Lib.Code
import CkptKernel.Types

namespace CkptKernel

open ByteMem Code

/-- Pages between `KERNBASE` and `PHYSTOP`. -/
def NFRAME : Nat := 32768

abbrev Frame := Fin NFRAME

instance : NeZero NFRAME := ⟨by decide⟩

/-- The physical page of a mapping. -/
inductive Phys where
  | frame (frame : Frame)
  /-- The page of trampoline.S, inside the kernel image. -/
  | trampoline
deriving DecidableEq, Repr

/-- Physical memory: `kmem.freelist` and the contents of pages. -/
structure Mem where
  free : List Frame
  page : Frame → Bytes

def kalloc : Code Mem (Option Frame) := fun mem =>
  match mem.free with
  | [] => .ok (none, mem)
  | frame :: rest => .ok (some frame, { mem with free := rest })

def kfree : Phys → Code Mem Unit
  | .frame frame => update (fun mem => { mem with free := frame :: mem.free })
  | .trampoline => .panic "kfree"

def setPage (frame : Frame) (bytes : Bytes) : Code Mem Unit :=
  update (fun mem => { mem with page := Function.update mem.page frame bytes })

/-- The flags of a leaf PTE other than `PTE_V`. -/
structure Perm where
  r : Bool
  w : Bool
  x : Bool
  u : Bool
deriving DecidableEq, Repr

structure Pte where
  pa : Phys
  perm : Perm
deriving DecidableEq, Repr

/-- One page-table page: its own page and its 512 entries. -/
structure Table (A : Type) where
  frame : Frame
  entry : Fin 512 → Option A

/-- A three-level Sv39 page table. -/
abbrev PageTable := Table (Table (Table Pte))

def Table.zeroed {A : Type} (frame : Frame) : Table A := ⟨frame, fun _ => none⟩

def Table.set {A : Type} (table : Table A) (i : Fin 512) (value : Option A) : Table A :=
  { table with entry := Function.update table.entry i value }

/-- `PX(level, va)`: the index of a virtual address at one level. -/
def PX (level va : Nat) : Fin 512 :=
  ⟨va / (PGSIZE * 512 ^ level) % 512, Nat.mod_lt _ (by omega)⟩

/-- The leaf PTE of `va`, if its tables exist and it is valid. -/
def PageTable.leaf (pt : PageTable) (va : Nat) : Option Pte :=
  (pt.entry (PX 2 va)).bind fun mid =>
    (mid.entry (PX 1 va)).bind fun low => low.entry (PX 0 va)

/-- `walk(pagetable, va, 0)`, with a missing table and an invalid entry alike:
every caller treats them so. -/
def walk (pt : PageTable) (va : Nat) : Code Mem (Option Pte) :=
  if MAXVA ≤ va then .panic "walk" else pure (pt.leaf va)

/-- One level of `walk(pagetable, va, 1)`: the table below an entry, made if
there is none. -/
def walkDown {A : Type} (entry : Option (Table A)) : Code Mem (Option (Table A)) :=
  match entry with
  | some table => pure (some table)
  | none => do
    let frame ← kalloc
    pure (frame.map Table.zeroed)

/-- Assign the leaf PTE of `va` in the low table `low` below `mid`. -/
def PageTable.put (pt : PageTable) (va : Nat) (mid : Table (Table Pte))
    (low : Table Pte) (pte : Option Pte) : PageTable :=
  pt.set (PX 2 va) (some (mid.set (PX 1 va) (some (low.set (PX 0 va) pte))))

/-- `mappages` of one page.  The flag is false if `walk` could not allocate a
page-table page; tables it made before that stay. -/
def mappages (pt : PageTable) (va : Nat) (pa : Phys) (perm : Perm) : Code Mem (PageTable × Bool) :=
  if va % PGSIZE ≠ 0 then .panic "mappages: va not aligned"
  else if MAXVA ≤ va then .panic "walk"
  else do
    let mid ← walkDown (pt.entry (PX 2 va))
    match mid with
    | none => pure (pt, false)
    | some mid => do
      let low ← walkDown (mid.entry (PX 1 va))
      match low with
      | none => pure (pt.set (PX 2 va) (some mid), false)
      | some low =>
        if (low.entry (PX 0 va)).isSome then .panic "mappages: remap"
        else pure (pt.put va mid low (some ⟨pa, perm⟩), true)

/-- Assign the leaf PTE of `va`, if its tables exist. -/
def PageTable.assign (pt : PageTable) (va : Nat) (pte : Option Pte) : PageTable :=
  match pt.entry (PX 2 va) with
  | none => pt
  | some mid =>
    match mid.entry (PX 1 va) with
    | none => pt
    | some low => pt.put va mid low pte

def Perm.Bare (perm : Perm) : Prop :=
  perm.r = false ∧ perm.w = false ∧ perm.x = false ∧ perm.u = false

instance (perm : Perm) : Decidable perm.Bare :=
  inferInstanceAs (Decidable (_ ∧ _))

def uvmunmapFrom (doFree : Bool) : PageTable → Nat → Nat → Code Mem PageTable
  | pt, _, 0 => pure pt
  | pt, va, npages + 1 => do
    let pte ← walk pt va
    match pte with
    | none => uvmunmapFrom doFree pt (va + PGSIZE) npages
    | some pte =>
      if pte.perm.Bare then .panic "uvmunmap: not a leaf"
      else do
        when (doFree = true) (kfree pte.pa)
        uvmunmapFrom doFree (pt.assign va none) (va + PGSIZE) npages

/-- Remove `npages` of mappings starting from `va`, optionally freeing the
physical memory. -/
def uvmunmap (doFree : Bool) (pt : PageTable) (va npages : Nat) : Code Mem PageTable :=
  if va % PGSIZE ≠ 0 then .panic "uvmunmap: not aligned"
  else uvmunmapFrom doFree pt va npages

/-- `PGROUNDUP`, as a number of pages. -/
def pagesOf (sz : Nat) : Nat := (sz + PGSIZE - 1) / PGSIZE

/-- Deallocate user pages to bring the process size from `oldsz` to `newsz`.
The number of pages is an `int` in the source, which is enough for sizes up to
`2^43`. -/
def uvmdealloc (pt : PageTable) (oldsz newsz : Nat) : Code Mem PageTable :=
  if oldsz ≤ newsz then pure pt
  else uvmunmap true pt (pagesOf newsz * PGSIZE) (pagesOf oldsz - pagesOf newsz)

/-- The loop of `uvmalloc`: `left` more pages, the next one page `k`, after
those from page `first` on.  The flag is false if memory ran out. -/
def uvmallocFrom (perm : Perm) (first : Nat) : Nat → PageTable → Nat → Code Mem (PageTable × Bool)
  | 0, pt, _ => pure (pt, true)
  | left + 1, pt, k => do
    let frame ← kalloc
    match frame with
    | none => do
      let pt ← uvmdealloc pt (k * PGSIZE) (first * PGSIZE)
      pure (pt, false)
    | some frame => do
      let mapped ← mappages pt (k * PGSIZE) (.frame frame) perm
      if mapped.2 then uvmallocFrom perm first left mapped.1 (k + 1)
      else do
        kfree (.frame frame)
        let pt ← uvmdealloc mapped.1 (k * PGSIZE) (first * PGSIZE)
        pure (pt, false)

/-- Allocate PTEs and physical memory to grow a process from `oldsz` to
`newsz`: the new size, or 0 on error.  The flags are `PTE_R|PTE_U|xperm`. -/
def uvmalloc (pt : PageTable) (oldsz newsz : Nat) (xperm : Perm) : Code Mem (PageTable × Nat) :=
  if newsz < oldsz then pure (pt, oldsz)
  else do
    let result ← uvmallocFrom { xperm with r := true, u := true } (pagesOf oldsz)
      (pagesOf newsz - pagesOf oldsz) pt (pagesOf oldsz)
    pure (result.1, if result.2 then newsz else 0)

/-- Free a page-table page after everything below its entries. -/
def freeTable {A : Type} (child : A → Code Mem Unit) (table : Table A) : Code Mem Unit := do
  forEach (fun i =>
    match table.entry i with
    | some entry => child entry
    | none => pure ()) (List.finRange 512)
  kfree (.frame table.frame)

/-- Recursively free page-table pages; all leaf mappings must already have
been removed.  A leaf has one of `PTE_R`, `PTE_W` and `PTE_X`. -/
def freewalk : PageTable → Code Mem Unit :=
  freeTable (freeTable (freeTable (fun _ => .panic "freewalk: leaf")))

/-- Free user memory pages, then free page-table pages. -/
def uvmfree (pt : PageTable) (sz : Nat) : Code Mem Unit := do
  let pt ← if 0 < sz then uvmunmap true pt 0 (pagesOf sz) else pure pt
  freewalk pt

/-- Look up a virtual address: the physical page, or `none` if it is not mapped
for the user. -/
def walkaddr (pt : PageTable) (va : Nat) : Option Phys :=
  if MAXVA ≤ va then none
  else
    match pt.leaf va with
    | none => none
    | some pte => if pte.perm.u then some pte.pa else none

def ismapped (pt : PageTable) (va : Nat) : Code Mem Bool := do
  let pte ← walk pt va
  pure pte.isSome

/-- Mark a PTE invalid for user access.  A PTE that is not valid stays 0; `walk`
returns 0 only where there is no low table. -/
def uvmclear (pt : PageTable) (va : Nat) : Code Mem PageTable :=
  if MAXVA ≤ va then .panic "walk"
  else
    match (pt.entry (PX 2 va)).bind (fun mid => mid.entry (PX 1 va)) with
    | none => .panic "uvmclear"
    | some low => pure (pt.assign va ((low.entry (PX 0 va)).map (fun pte =>
      { pte with perm := { pte.perm with u := false } })))

def uvmcreate : Code Mem (Option PageTable) := do
  let frame ← kalloc
  pure (frame.map Table.zeroed)

/-- The loop of `uvmcopy`: `left` more pages, the next one page `k`.  The flag
is false if memory ran out. -/
def uvmcopyFrom (old : PageTable) : Nat → PageTable → Nat → Code Mem (PageTable × Bool)
  | 0, new, _ => pure (new, true)
  | left + 1, new, k => do
    let pte ← walk old (k * PGSIZE)
    match pte with
    | none => uvmcopyFrom old left new (k + 1)
    | some pte => do
      let frame ← kalloc
      match frame with
      | none => do
        let new ← uvmunmap true new 0 k
        pure (new, false)
      | some frame => do
        let mem ← read
        match pte.pa with
        | .frame source => setPage frame (mem.page source)
        | .trampoline => pure ()
        let mapped ← mappages new (k * PGSIZE) (.frame frame) pte.perm
        if mapped.2 then uvmcopyFrom old left mapped.1 (k + 1)
        else do
          kfree (.frame frame)
          let new ← uvmunmap true mapped.1 0 k
          pure (new, false)

/-- Copy a parent's memory into a child's page table. -/
def uvmcopy (old new : PageTable) (sz : Nat) : Code Mem (PageTable × Bool) :=
  uvmcopyFrom old (pagesOf sz) new 0

def TRAMPOLINE : Nat := MAXVA - PGSIZE
def TRAPFRAME : Nat := TRAMPOLINE - PGSIZE

/-- A user page table with no user memory, but with trampoline and trapframe
pages. -/
def procPagetable (trapframe : Frame) : Code Mem (Option PageTable) := do
  let pt ← uvmcreate
  match pt with
  | none => pure none
  | some pt => do
    let mapped ← mappages pt TRAMPOLINE .trampoline ⟨true, false, true, false⟩
    if mapped.2 = false then do
      uvmfree mapped.1 0
      pure none
    else do
      let mapped ← mappages mapped.1 TRAPFRAME (.frame trapframe)
        ⟨true, true, false, false⟩
      if mapped.2 = false then do
        let pt ← uvmunmap false mapped.1 TRAMPOLINE 1
        uvmfree pt 0
        pure none
      else pure (some mapped.1)

/-- Free a process's page table, and free the physical memory it refers to. -/
def procFreepagetable (pt : PageTable) (sz : Nat) : Code Mem Unit := do
  let pt ← uvmunmap false pt TRAMPOLINE 1
  let pt ← uvmunmap false pt TRAPFRAME 1
  uvmfree pt sz

end CkptKernel
