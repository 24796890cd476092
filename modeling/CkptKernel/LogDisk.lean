/-
The on-disk half of kernel/log.c: the write-ahead log, its commit and its
recovery.  A run of block I/O keeps what `bread` returns and the block writes
issued so far; a crash keeps a prefix of those writes and forgets the cache.
-/
import CkptKernel.Param
import CkptKernel.Lib.WriteSeq

namespace CkptKernel

open ByteMem WriteSeq

abbrev Disk := Nat → Block

structure LogHeader where
  n : Nat
  block : Nat → Nat

/-- The buffer cache during a run of block I/O: the contents `bread` returns
and the writes `bwrite` has issued to the disk, oldest first. -/
structure DiskRun where
  view : Disk
  issued : List (Nat × Block)

/-- A run over a cache that holds `view` and has issued nothing yet. -/
def DiskRun.start (view : Disk) : DiskRun := ⟨view, []⟩

def bwrite (blockno : Nat) (data : Block) (run : DiskRun) : DiskRun where
  view := Function.update run.view blockno data
  issued := run.issued ++ [(blockno, data)]

/-- The signed 32-bit `n` of a header block, as the number of entries the
loops over it visit. -/
def headCount (head : Block) : Nat :=
  if getLE head 0 4 < 2 ^ 31 then getLE head 0 4 else 0

/-- `read_head`: load the log header from its block. -/
def readHead (head : Block) : LogHeader where
  n := headCount head
  block := fun i => getLE head (4 + 4 * i) 4

/-- The header block that `write_head` prepares over the old buffer. -/
def putHead (lh : LogHeader) (head : Block) : Block :=
  (List.range lh.n).foldl
    (fun head i => putLE head (4 + 4 * i) 4 (lh.block i))
    (putLE head 0 4 lh.n)

/-- `write_head`: the true point at which the transaction commits. -/
def writeHead (logstart : Nat) (lh : LogHeader) (run : DiskRun) : DiskRun :=
  bwrite logstart (putHead lh (run.view logstart)) run

/-- The copy loop that `write_log` and `install_trans` share: block `dst tail`
is overwritten with the buffer of block `src tail`. -/
def copyBlocks (count : Nat) (src dst : Nat → Nat) (run : DiskRun) : DiskRun :=
  (List.range count).foldl
    (fun run tail => bwrite (dst tail) (run.view (src tail)) run) run

/-- `write_log`: copy modified blocks from cache to log. -/
def writeLog (logstart : Nat) (lh : LogHeader) (run : DiskRun) : DiskRun :=
  copyBlocks lh.n lh.block (fun tail => logstart + tail + 1) run

/-- `install_trans`: copy committed blocks from log to their home location. -/
def installTrans (logstart : Nat) (lh : LogHeader) (run : DiskRun) : DiskRun :=
  copyBlocks lh.n (fun tail => logstart + tail + 1) lh.block run

def commit (logstart : Nat) (lh : LogHeader) (run : DiskRun) : DiskRun :=
  if 0 < lh.n then
    writeHead logstart { lh with n := 0 }
      (installTrans logstart lh
        (writeHead logstart lh (writeLog logstart lh run)))
  else run

def recoverFromLog (logstart : Nat) (run : DiskRun) : DiskRun :=
  let lh := readHead (run.view logstart)
  writeHead logstart { lh with n := 0 } (installTrans logstart lh run)

/-- The disk after a crash that let the first `count` writes of a run through.
-/
def crashDisk (disk : Disk) (run : DiskRun) (count : Nat) : Disk :=
  applyWrites (run.issued.take count) disk

/-- Reboot: recovery starts with an empty cache, so `bread` reads the disk. -/
def reboot (logstart : Nat) (disk : Disk) : DiskRun :=
  recoverFromLog logstart (DiskRun.start disk)

/-- A crash inside `recover_from_log` after `count` of its writes. -/
def crashedRecovery (logstart : Nat) (disk : Disk) (count : Nat) : Disk :=
  crashDisk disk (reboot logstart disk) count

/-- Any number of interrupted recoveries, then one that completes. -/
def recoverAfter (logstart : Nat) (disk : Disk) (crashes : List Nat) : Disk :=
  let last := crashes.foldl (crashedRecovery logstart) disk
  applyWrites (reboot logstart last).issued last

/-- Block numbers of the log: the header and its `LOGBLOCKS` data blocks. -/
def InLog (logstart blockno : Nat) : Prop :=
  logstart ≤ blockno ∧ blockno ≤ logstart + LOGBLOCKS

instance (logstart blockno : Nat) : Decidable (InLog logstart blockno) :=
  inferInstanceAs (Decidable (_ ∧ _))

def HeadEmpty (logstart : Nat) (disk : Disk) : Prop :=
  headCount (disk logstart) = 0

/-- What `log_write` establishes of the in-memory header: at most `LOGBLOCKS`
pairwise distinct blocks, none of them in the log, each a block number that
fits its field. -/
structure LoggedBlocks (logstart : Nat) (lh : LogHeader) : Prop where
  fits : lh.n ≤ LOGBLOCKS
  distinct : ∀ i j, i < lh.n → j < lh.n → lh.block i = lh.block j → i = j
  outside : ∀ i, i < lh.n → ¬ InLog logstart (lh.block i)
  number : ∀ i, i < lh.n → lh.block i < 2 ^ 32

/-- The cache when `commit` starts: a block that was not logged is either in
the log or as it is on disk. -/
def CacheOf (logstart : Nat) (lh : LogHeader) (disk view : Disk) : Prop :=
  ∀ blockno, ¬ InLog logstart blockno →
    (∀ i, i < lh.n → lh.block i ≠ blockno) → view blockno = disk blockno

/-- The disks on which the kernel starts a commit: `initlog` has recovered
whatever disk it found, and every earlier commit of this boot has completed.
-/
inductive CommitStart (logstart : Nat) : Disk → Prop
  | boot (disk : Disk) :
      CommitStart logstart (applyWrites (reboot logstart disk).issued disk)
  | committed {disk view : Disk} {lh : LogHeader}
      (hdisk : CommitStart logstart disk)
      (hlog : LoggedBlocks logstart lh)
      (hview : CacheOf logstart lh disk view) : CommitStart logstart
        (applyWrites (commit logstart lh (DiskRun.start view)).issued disk)

end CkptKernel
