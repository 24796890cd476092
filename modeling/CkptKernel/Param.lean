/-
Constants of kernel/param.h, kernel/file.h, kernel/fs.h, kernel/fcntl.h and
kernel/riscv.h.
-/
import CkptKernel.Lib.LittleEndian

namespace CkptKernel

def NPROC : Nat := 64
def NOFILE : Nat := 16
def NFILE : Nat := 100
def NINODE : Nat := 50
def NDEV : Nat := 10
def CONSOLE : UInt16 := 1
def ROOTDEV : Nat := 1
def ROOTINO : Nat := 1
def MAXOPBLOCKS : Nat := 10
def LOGBLOCKS : Nat := MAXOPBLOCKS * 3
def BSIZE : Nat := 1024
def NDIRECT : Nat := 12
def NINDIRECT : Nat := BSIZE / 4
def MAXFILE : Nat := NDIRECT + NINDIRECT
def BPB : Nat := BSIZE * 8
def IPB : Nat := BSIZE / 64
def DIRSIZ : Nat := 14
def O_RDONLY : UInt32 := 0x000
def O_WRONLY : UInt32 := 0x001
def O_RDWR : UInt32 := 0x002
def O_CREATE : UInt32 := 0x200
def O_TRUNC : UInt32 := 0x400
def PGSIZE : Nat := 4096
def MAXVA : Nat := 2 ^ 38

/-- One disk block.  Offsets from `BSIZE` on are never read. -/
abbrev Block := ByteMem.Bytes

end CkptKernel
