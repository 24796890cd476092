/-
The lower layers of kernel/fs.c: the block allocator, the inode table and
inode contents.  Blocks are the buffer cache's: a change of `bp->data` is seen
by every later `bread`.  There is one device, so `dev` is left out.
-/
import Mathlib.Data.List.FinRange
import CkptKernel.FsLayout
import CkptKernel.Log

namespace CkptKernel

open ByteMem Code

abbrev InodeRef := Fin NINODE

/-- `struct inode`; `copy` is the part copied from disk. -/
structure Inode where
  inum : Nat
  ref : Int
  locked : Bool
  valid : Bool
  copy : Dinode

/-- The file system as the kernel sees it. -/
structure Fs where
  sb : Superblock
  disk : Disk
  log : Log
  inode : InodeRef → Inode

def beginOp : Code Fs Unit := fun fs =>
  if fs.log.MustWait then .error .sleep
  else .ok ((), { fs with log := fs.log.reserve })

/-- `end_op`: the last outstanding operation commits. -/
def endOp : Code Fs Unit := fun fs =>
  match fs.log.finish with
  | .error reason => .error reason
  | .ok (log, true) => .ok ((), { fs with log := log.committed })
  | .ok (log, false) => .ok ((), { fs with log := log })

def bread (blockno : Nat) : Code Fs Block := do
  let fs ← read
  pure (fs.disk blockno)

/-- Change the data of a buffer without logging it. -/
def setBuf (blockno : Nat) (data : Block) : Code Fs Unit :=
  update (fun fs => { fs with disk := Function.update fs.disk blockno data })

/-- Change the data of a buffer and pass it to `log_write`. -/
def logWrite (blockno : Nat) (data : Block) : Code Fs Unit := fun fs =>
  match fs.log.write blockno with
  | .error reason => .error reason
  | .ok log => .ok ((), { fs with
      disk := Function.update fs.disk blockno data
      log := log })

def bzero (bno : Nat) : Code Fs Unit := logWrite bno (fun _ => 0)

def Fs.used (fs : Fs) (b : Nat) : Bool :=
  bitSet (fs.disk (BBLOCK b fs.sb)) (b % BPB)

/-- The first block whose bit is clear, in the order of `balloc`'s loops. -/
def Fs.firstFree (fs : Fs) : Option Nat :=
  (List.range fs.sb.size).find? (fun b => !fs.used b)

/-- Allocate a zeroed disk block; 0 if out of disk space. -/
def balloc : Code Fs Nat := do
  let fs ← read
  match fs.firstFree with
  | none => pure 0
  | some b => do
    logWrite (BBLOCK b fs.sb)
      (setBit (fs.disk (BBLOCK b fs.sb)) (b % BPB))
    bzero b
    pure b

def bfree (b : Nat) : Code Fs Unit := do
  let fs ← read
  if fs.used b then
    logWrite (BBLOCK b fs.sb)
      (clearBit (fs.disk (BBLOCK b fs.sb)) (b % BPB))
  else .panic "freeing free block"

def setInode (ip : InodeRef) (change : Inode → Inode) : Code Fs Unit :=
  update (fun fs => { fs with
    inode := Function.update fs.inode ip (change (fs.inode ip)) })

def setCopy (ip : InodeRef) (change : Dinode → Dinode) : Code Fs Unit :=
  setInode ip (fun inode => { inode with copy := change inode.copy })

def Fs.dinode (fs : Fs) (inum : Nat) : Dinode :=
  getDinode (fs.disk (IBLOCK inum fs.sb)) (inum % IPB)

def writeDinode (inum : Nat) (dn : Dinode) : Code Fs Unit := do
  let fs ← read
  logWrite (IBLOCK inum fs.sb)
    (putDinode dn (fs.disk (IBLOCK inum fs.sb)) (inum % IPB))

/-- `iget`: find the inode in the table or recycle an entry for it. -/
def iget (inum : Nat) : Code Fs InodeRef := do
  let fs ← read
  match (List.finRange NINODE).find? (fun ip =>
      decide (0 < (fs.inode ip).ref ∧ (fs.inode ip).inum = inum)) with
  | some ip => do
    setInode ip (fun inode => { inode with ref := inode.ref + 1 })
    pure ip
  | none =>
    match (List.finRange NINODE).find? (fun ip =>
        decide ((fs.inode ip).ref = 0)) with
    | some ip => do
      setInode ip (fun inode =>
        { inode with inum := inum, ref := 1, valid := false })
      pure ip
    | none => .panic "iget: no inodes"

/-- `iget_by_inum`: used by checkpoint/restore; the disk is not looked at. -/
def igetByInum (inum : Nat) : Code Fs InodeRef := iget inum

/-- The first free inode number, in the order of `ialloc`'s loop. -/
def Fs.firstFreeInode (fs : Fs) : Option Nat :=
  (List.range fs.sb.ninodes).find? (fun inum =>
    decide (1 ≤ inum ∧ (fs.dinode inum).type = 0))

/-- Allocate an inode and mark it allocated by giving it a type. -/
def ialloc (type : UInt16) : Code Fs (Option InodeRef) := do
  let fs ← read
  match fs.firstFreeInode with
  | none => pure none
  | some inum => do
    writeDinode inum (.fresh type)
    let ip ← iget inum
    pure (some ip)

def iupdate (ip : InodeRef) : Code Fs Unit := do
  let fs ← read
  writeDinode (fs.inode ip).inum (fs.inode ip).copy

def idup (ip : InodeRef) : Code Fs InodeRef := do
  setInode ip (fun inode => { inode with ref := inode.ref + 1 })
  pure ip

def acquireSleep (ip : InodeRef) : Code Fs Unit := do
  let fs ← read
  if (fs.inode ip).locked then stop .sleep
  else setInode ip (fun inode => { inode with locked := true })

def releaseSleep (ip : InodeRef) : Code Fs Unit :=
  setInode ip (fun inode => { inode with locked := false })

/-- Lock the given inode; reads it from disk if necessary. -/
def ilock (ip : InodeRef) : Code Fs Unit := do
  let fs ← read
  if (fs.inode ip).ref < 1 then .panic "ilock"
  else do
    acquireSleep ip
    if (fs.inode ip).valid then pure ()
    else do
      let dn := fs.dinode (fs.inode ip).inum
      setInode ip (fun inode => { inode with copy := dn, valid := true })
      if dn.type = 0 then .panic "ilock: no type" else pure ()

def iunlock (ip : InodeRef) : Code Fs Unit := do
  let fs ← read
  if (fs.inode ip).locked = false ∨ (fs.inode ip).ref < 1 then
    .panic "iunlock"
  else releaseSleep ip

def itruncDirect (ip : InodeRef) (i : Fin (NDIRECT + 1)) : Code Fs Unit := do
  let fs ← read
  let addr := (fs.inode ip).copy.addrs i
  when (addr ≠ 0) do
    bfree addr.toNat
    setCopy ip (·.withAddr i 0)

def Fs.entry (fs : Fs) (ind j : Nat) : Nat := getLE (fs.disk ind) (4 * j) 4

/-- Free the block in entry `j` of the indirect block `ind`. -/
def itruncEntry (ind j : Nat) : Code Fs Unit := do
  let fs ← read
  when (fs.entry ind j ≠ 0) (bfree (fs.entry ind j))

/-- Free the indirect block and everything it lists. -/
def itruncIndirect (ip : InodeRef) : Code Fs Unit := do
  let fs ← read
  let ind := (fs.inode ip).copy.addrs indirectSlot
  when (ind ≠ 0) do
    forEach (itruncEntry ind.toNat) (List.range NINDIRECT)
    bfree ind.toNat
    setCopy ip (·.withAddr indirectSlot 0)

def itrunc (ip : InodeRef) : Code Fs Unit := do
  forEach (fun i : Fin NDIRECT => itruncDirect ip i.castSucc)
    (List.finRange NDIRECT)
  itruncIndirect ip
  setCopy ip (fun dn => { dn with size := 0 })
  iupdate ip

/-- Drop a reference to an in-memory inode.  The last reference to an inode
without links frees it on disk. -/
def iput (ip : InodeRef) : Code Fs Unit := do
  let fs ← read
  let inode := fs.inode ip
  when (inode.ref = 1 ∧ inode.valid = true ∧ inode.copy.nlink = 0) do
    acquireSleep ip
    itrunc ip
    setCopy ip (fun dn => { dn with type := 0 })
    iupdate ip
    setInode ip (fun inode => { inode with valid := false })
    releaseSleep ip
  setInode ip (fun inode => { inode with ref := inode.ref - 1 })

def iunlockput (ip : InodeRef) : Code Fs Unit := do
  iunlock ip
  iput ip

/-- A slot of `ip->addrs`, filled from the allocator when empty. -/
def bmapSlot (ip : InodeRef) (i : Fin (NDIRECT + 1)) : Code Fs Nat := do
  let fs ← read
  let addr := (fs.inode ip).copy.addrs i
  if addr ≠ 0 then pure addr.toNat
  else do
    let addr ← balloc
    if addr = 0 then pure 0
    else do
      setCopy ip (·.withAddr i addr)
      pure addr

/-- Entry `j` of the indirect block `ind`, filled when empty. -/
def bmapEntry (ind j : Nat) : Code Fs Nat := do
  let fs ← read
  if fs.entry ind j ≠ 0 then pure (fs.entry ind j)
  else do
    let addr ← balloc
    let data ← bread ind
    when (addr ≠ 0) (logWrite ind (putLE data (4 * j) 4 addr))
    pure addr

/-- The disk block address of the `bn`-th block of an inode, allocated if
there is none; 0 if out of disk space. -/
def bmap (ip : InodeRef) (bn : Nat) : Code Fs Nat :=
  if h : bn < NDIRECT then bmapSlot ip ⟨bn, Nat.lt_succ_of_lt h⟩
  else if bn - NDIRECT < NINDIRECT then do
    let ind ← bmapSlot ip indirectSlot
    if ind = 0 then pure 0
    else bmapEntry ind (bn - NDIRECT)
  else .panic "bmap: out of range"

/-- Bytes handed to or taken from a caller of `readi` and `writei`.  `copied
tot m` is how many of the `m` bytes at offset `tot` the copy transfers: all of
them for a kernel address, fewer when it meets a bad user page. -/
structure Buffer where
  byte : Nat → UInt8
  copied : Nat → Nat → Nat

/-- A kernel address: `either_copyin` and `either_copyout` are `memmove`. -/
def Buffer.kernel (bytes : Bytes) : Buffer := ⟨bytes, fun _ m => m⟩

/-- How many of `m` bytes from `addr + tot` on `copyout` or `copyin` transfers
before it meets a page it cannot use. -/
def reach (access : Nat → Bool) : Nat → Nat → Nat
  | _, 0 => 0
  | tot, m + 1 => if access tot then reach access (tot + 1) m + 1 else 0

/-- A user address, the destination of `readi` or the source of `writei`. -/
def Buffer.user (mem : Bytes) (access : Nat → Bool) : Buffer :=
  ⟨mem, reach access⟩

/-- The loop of `readi`.  The bytes read so far are in `dst`. -/
def readLoop (ip : InodeRef) (buf : Buffer) (off n : Nat) :
    Nat → Nat → Bytes → Code Fs (Option Nat × Bytes)
  | 0, tot, dst => pure (some tot, dst)
  | fuel + 1, tot, dst =>
    if tot < n then do
      let addr ← bmap ip ((off + tot) / BSIZE)
      if addr = 0 then pure (some tot, dst)
      else do
        let data ← bread addr
        let m := min (n - tot) (BSIZE - (off + tot) % BSIZE)
        let count := buf.copied tot m
        let dst := blit dst tot (min count m)
          (fun i => data ((off + tot) % BSIZE + i))
        if count < m then pure (none, dst)
        else readLoop ip buf off n fuel (tot + m) dst
    else pure (some tot, dst)

/-- Read data from inode: the count, or `none` for -1, and the bytes. -/
def readi (ip : InodeRef) (buf : Buffer) (off n : Nat) : Code Fs (Option Nat × Bytes) := do
  let fs ← read
  let size := (fs.inode ip).copy.size.toNat
  if size < off ∨ (off + n) % 2 ^ 32 < off then pure (some 0, buf.byte)
  else do
    let n := if size < off + n then size - off else n
    readLoop ip buf off n n 0 buf.byte

/-- The loop of `writei`; the result is the number of bytes written. -/
def writeLoop (ip : InodeRef) (buf : Buffer) (off n : Nat) : Nat → Nat → Code Fs Nat
  | 0, tot => pure tot
  | fuel + 1, tot =>
    if tot < n then do
      let addr ← bmap ip ((off + tot) / BSIZE)
      if addr = 0 then pure tot
      else do
        let data ← bread addr
        let m := min (n - tot) (BSIZE - (off + tot) % BSIZE)
        let count := buf.copied tot m
        let data := blit data ((off + tot) % BSIZE) (min count m)
          (fun i => buf.byte (tot + i))
        if count < m then do
          setBuf addr data
          pure tot
        else do
          logWrite addr data
          writeLoop ip buf off n fuel (tot + m)
    else pure tot

/-- Write data to inode: the number of bytes written, or `none` for -1. -/
def writei (ip : InodeRef) (buf : Buffer) (off n : Nat) : Code Fs (Option Nat) := do
  let fs ← read
  let size := (fs.inode ip).copy.size.toNat
  if size < off ∨ (off + n) % 2 ^ 32 < off then pure none
  else if MAXFILE * BSIZE < (off + n) % 2 ^ 32 then pure none
  else do
    let tot ← writeLoop ip buf off n n 0
    when (size < off + tot)
      (setCopy ip (fun dn => { dn with size := UInt32.ofNat (off + tot) }))
    iupdate ip
    pure (some tot)

end CkptKernel
