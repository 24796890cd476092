/-
The allocator of user/umalloc.c.  Addresses count bytes, sizes count headers of
16 bytes and wrap at 2^32; `base` is the address of the static header.  `limit`
bounds the turns of each loop; `stop .sleep` is reached only if it is too small.
-/
import CkptKernel.Lib.Code
import CkptKernel.Lib.LinkedCells
import Mathlib.Algebra.Group.Nat.Defs
import Mathlib.Logic.Function.Basic

namespace CkptKernel.Malloc

open Code LinkedCells

structure Header where
  ptr : Nat
  size : Nat
deriving DecidableEq, Repr

/-- The headers in memory, `freep` (0 is null), the break, and whether the next
calls of `sbrk` succeed. -/
structure Arena where
  hdr : Nat → Header
  freep : Nat
  brk : Nat
  grants : Nat → Bool

namespace Arena

def ptr (arena : Arena) (p : Nat) : Nat := (arena.hdr p).ptr

def size (arena : Arena) (p : Nat) : Nat := (arena.hdr p).size

def set (arena : Arena) (p : Nat) (header : Header) : Arena :=
  { arena with hdr := Function.update arena.hdr p header }

end Arena

/-- `sbrk`: the old break, or no memory. -/
def sbrk (n : Int) : Code Arena (Option Nat) := fun arena =>
  let asked := { arena with grants := fun i => arena.grants (i + 1) }
  if arena.grants 0 then
    .ok (some arena.brk, { asked with brk := (arena.brk + n).toNat })
  else .ok (none, asked)

/-- The loop of `free`: the block that `bp` comes behind. -/
def findPlace (bp : Nat) : Nat → Nat → Code Arena Nat
  | 0, _ => stop .sleep
  | turns + 1, p => do
    let arena ← read
    let next := arena.ptr p
    if p < bp ∧ bp < next then return p
    else if next ≤ p ∧ (p < bp ∨ bp < next) then return p
    else findPlace bp turns next

/-- Join `bp` with the block behind it, or link it to that block. -/
def joinNext (bp p : Nat) (arena : Arena) : Arena :=
  let next := arena.ptr p
  if bp + 16 * arena.size bp = next then
    arena.set bp ⟨arena.ptr next, (arena.size bp + arena.size next) % 2 ^ 32⟩
  else arena.set bp ⟨next, arena.size bp⟩

/-- Join `bp` with the block before it, or link that block to it. -/
def joinPrev (bp p : Nat) (arena : Arena) : Arena :=
  if p + 16 * arena.size p = bp then
    arena.set p ⟨arena.ptr bp, (arena.size p + arena.size bp) % 2 ^ 32⟩
  else arena.set p ⟨bp, arena.size p⟩

section Code

variable (base limit : Nat)

def free (ap : Nat) : Code Arena Unit := do
  let bp := ap - 16
  let arena ← read
  let p ← findPlace bp limit arena.freep
  update fun arena =>
    { joinPrev bp p (joinNext bp p arena) with freep := p }

/-- The size in bytes is an `int` for `sbrk`. -/
def morecore (nu : Nat) : Code Arena (Option Nat) := do
  let nu := if nu < 4096 then 4096 else nu
  match ← sbrk (BitVec.ofNat 32 (nu * 16)).toInt with
  | none => return none
  | some hp =>
    update fun arena => arena.set hp ⟨arena.ptr hp, nu⟩
    free limit (hp + 16)
    let arena ← read
    return some arena.freep

/-- Take `nunits` headers from the end of the block `p`, or all of it. -/
def take (nunits prevp p : Nat) : Code Arena (Option Nat) := do
  let arena ← read
  if arena.size p = nunits then
    update fun arena =>
      { arena.set prevp ⟨arena.ptr p, arena.size prevp⟩ with freep := prevp }
    return some (p + 16)
  else
    let q := p + 16 * (arena.size p - nunits)
    update fun arena => arena.set p ⟨arena.ptr p, arena.size p - nunits⟩
    update fun arena =>
      { arena.set q ⟨arena.ptr q, nunits⟩ with freep := prevp }
    return some (q + 16)

def search (nunits : Nat) : Nat → Nat → Nat → Code Arena (Option Nat)
  | 0, _, _ => stop .sleep
  | turns + 1, prevp, p => do
    let arena ← read
    if nunits ≤ arena.size p then take nunits prevp p
    else if p = arena.freep then
      match ← morecore limit nunits with
      | none => return none
      | some p =>
        let arena ← read
        search nunits turns p (arena.ptr p)
    else search nunits turns p (arena.ptr p)

/-- Headers for `nbytes` bytes and their own header. -/
def unitsFor (nbytes : Nat) : Nat := ((nbytes + 16 - 1) / 16 + 1) % 2 ^ 32

/-- The first call makes a ring of the static header alone. -/
def initBase : Code Arena Unit := do
  let arena ← read
  when (arena.freep = 0)
    (update fun arena => { arena.set base ⟨base, 0⟩ with freep := base })

def malloc (nbytes : Nat) : Code Arena (Option Nat) := do
  initBase base
  let arena ← read
  search limit (unitsFor nbytes) limit arena.freep (arena.ptr arena.freep)

end Code

end CkptKernel.Malloc
