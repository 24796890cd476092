/-
Code of the file system that stops only for reasons its caller may expect.  Two
panics are worth telling apart, that of `bfree` and the second of `ilock`.  No
other code has them.  Code that does not call `iget` leaves every entry of the
inode table to the inode it is for.
-/
import CkptKernel.Syscalls

namespace CkptKernel

open ByteMem Code

/-- The other panics of the file system. -/
def fsPanics : List String :=
  ["iget: no inodes", "ilock", "iunlock", "bmap: out of range",
    "dirlookup not DIR", "dirlookup read", "dirlink read",
    "isdirempty: readi", "null cwd", "too big a transaction",
    "log_write outside of trans", "log.committing", "unlink: writei", "unlink: nlink < 1"]

/-- Reasons to stop with what any file system code may stop for. -/
class Mild (stops : Stop → Prop) : Prop where
  sleep : stops .sleep
  panic : ∀ message ∈ fsPanics, stops (.panic message)

instance : Mild fun _ => True := ⟨trivial, fun _ _ => trivial⟩

/-- Every entry of the inode table is for the inode it was for. -/
def Fs.SameInums (fs fs' : Fs) : Prop := ∀ e, (fs'.inode e).inum = (fs.inode e).inum

/-- An invariant that depends on no more than that. -/
class Steady (Inv : Fs → Prop) : Prop where
  keep : ∀ {fs fs' : Fs}, Inv fs → fs.SameInums fs' → Inv fs'

instance : Steady fun _ => True := ⟨fun _ _ => trivial⟩

instance (fs : Fs) : Steady fs.SameInums := ⟨fun hfirst hnext e => (hnext e).trans (hfirst e)⟩

section Quiet

variable {stops : Stop → Prop} [Mild stops] {ip dp : InodeRef} {Inv : Fs → Prop} [Steady Inv]

theorem quiet_fsPanic {S A : Type} {pre : S → Prop} {after : A → S → Prop} {message : String}
    (hmem : message ∈ fsPanics) : Leads stops pre after (Code.panic message) :=
  leads_panic (Mild.panic message hmem)

omit [Mild stops] in
theorem steady_update {change : Fs → Fs} (hsame : ∀ fs : Fs, fs.SameInums (change fs)) :
    Keeps stops Inv (update change) := fun fs hinv => Steady.keep hinv (hsame fs)

omit [Mild stops] in
theorem steady_setInode {change : Inode → Inode}
    (hchange : ∀ inode, (change inode).inum = inode.inum) : Keeps stops Inv (setInode ip change) :=
  steady_update fun fs => (Function.forall_update_iff fs.inode fun e inode =>
    inode.inum = (fs.inode e).inum).mpr ⟨hchange _, fun _ _ => rfl⟩

omit [Mild stops] [Steady Inv] in
theorem wlp_sameInums {A : Type} {code : Code Fs A} {fs : Fs}
    (hcode : Keeps (fun _ => True) fs.SameInums code) : wlp code fs (fun _ => fs.SameInums) :=
  wlp_of_ends (hcode fs fun _ => rfl)

theorem quiet_iget (inum : Nat) : Quiet stops (iget inum) := by
  refine leads_read_bind fun fs => ?_
  split
  · exact leads_bind (quiet_update _) fun _ => leads_pure _
  · split
    · exact leads_bind (quiet_update _) fun _ => leads_pure _
    · exact quiet_fsPanic (by decide)

theorem quiet_iunlock (ip : InodeRef) : Keeps stops Inv (iunlock ip) :=
  leads_read_bind fun _ => leads_ite (quiet_fsPanic (by decide)) (steady_setInode fun _ => rfl)

theorem quiet_logWrite (blockno : Nat) (data : Block) :
    Keeps stops Inv (logWrite blockno data) := by
  intro fs hinv
  unfold ends logWrite
  cases hlog : fs.log.write blockno with
  | ok log => exact Steady.keep hinv fun _ => rfl
  | error reason =>
    rcases Log.write_error hlog with ⟨_, rfl⟩ | ⟨_, rfl⟩
    · exact Mild.panic _ (by decide)
    · exact Mild.panic _ (by decide)

theorem quiet_writeDinode (inum : Nat) (dn : Dinode) : Keeps stops Inv (writeDinode inum dn) :=
  leads_read_bind fun _ => quiet_logWrite _ _

theorem quiet_iupdate (ip : InodeRef) : Keeps stops Inv (iupdate ip) :=
  leads_read_bind fun _ => quiet_writeDinode _ _

theorem quiet_balloc : Keeps stops Inv balloc := by
  refine leads_read_bind fun fs => ?_
  cases fs.firstFree with
  | none => exact leads_pure 0
  | some b => exact leads_bind (quiet_logWrite _ _) fun _ =>
    leads_bind (quiet_logWrite _ _) fun _ => leads_pure b

theorem quiet_bmapSlot (i : Fin (NDIRECT + 1)) : Keeps stops Inv (bmapSlot ip i) :=
  leads_read_bind fun _ => leads_ite (leads_pure _)
    (leads_bind quiet_balloc fun _ => leads_ite (leads_pure _)
      (leads_bind (steady_setInode fun _ => rfl) fun _ => leads_pure _))

theorem quiet_bmapEntry (ind j : Nat) : Keeps stops Inv (bmapEntry ind j) :=
  leads_read_bind fun _ => leads_ite (leads_pure _) (leads_bind quiet_balloc fun _ => leads_bind
      (leads_read_bind fun _ => leads_pure _) fun _ =>
        leads_bind (leads_when (quiet_logWrite _ _)) fun _ => leads_pure _)

theorem quiet_bmap (bn : Nat) : Keeps stops Inv (bmap ip bn) := by
  unfold bmap
  split
  · exact quiet_bmapSlot _
  · exact leads_ite (leads_bind (quiet_bmapSlot _) fun _ =>
      leads_ite (leads_pure _) (quiet_bmapEntry _ _))
      (quiet_fsPanic (by decide))

omit [Mild stops] [Steady Inv] in
theorem quiet_bread (blockno : Nat) : Keeps stops Inv (bread blockno) :=
  leads_read_bind fun _ => leads_pure _

theorem quiet_writeLoop (buf : Buffer) (off n fuel tot : Nat) :
    Keeps stops Inv (writeLoop ip buf off n fuel tot) := by
  induction fuel generalizing tot with
  | zero => exact leads_pure _
  | succ fuel ih =>
    exact leads_ite (leads_bind (quiet_bmap _) fun _ =>
      leads_ite (leads_pure _) (leads_bind (quiet_bread _) fun _ =>
        leads_ite (leads_bind (steady_update fun _ _ => rfl) fun _ => leads_pure _)
          (leads_bind (quiet_logWrite _ _) fun _ => ih _)))
      (leads_pure _)

theorem quiet_writei (buf : Buffer) (off n : Nat) : Keeps stops Inv (writei ip buf off n) :=
  leads_read_bind fun _ => leads_ite (leads_pure _)
    (leads_ite (leads_pure _) (leads_bind (quiet_writeLoop _ _ _ _ _) fun _ =>
      leads_bind (leads_when (steady_setInode fun _ => rfl)) fun _ =>
        leads_bind (quiet_iupdate ip) fun _ => leads_pure _))

theorem quiet_readLoop (buf : Buffer) (off n fuel tot : Nat) (dst : Bytes) :
    Keeps stops Inv (readLoop ip buf off n fuel tot dst) := by
  induction fuel generalizing tot dst with
  | zero => exact leads_pure _
  | succ fuel ih =>
    exact leads_ite (leads_bind (quiet_bmap _) fun _ =>
      leads_ite (leads_pure _) (leads_bind (quiet_bread _) fun _ =>
        leads_ite (leads_pure _) (ih _ _))) (leads_pure _)

theorem quiet_readi (buf : Buffer) (off n : Nat) : Keeps stops Inv (readi ip buf off n) :=
  leads_read_bind fun _ => leads_ite (leads_pure _) (quiet_readLoop _ _ _ _ _ _)

theorem quiet_readDirent (off : Nat) {message : String}
    (hmem : message ∈ fsPanics) : Keeps stops Inv (readDirent dp off message) :=
  leads_bind (quiet_readi _ _ _) fun _ => leads_ite (leads_pure _) (quiet_fsPanic hmem)

theorem quiet_dirlookupFrom (name : Name) (fuel off : Nat) :
    Quiet stops (dirlookupFrom dp name fuel off) := by
  induction fuel generalizing off with
  | zero => exact leads_pure _
  | succ fuel ih =>
    exact leads_read_bind fun _ => leads_ite
      (leads_bind (quiet_readDirent _ (by decide)) fun _ => leads_ite
        (leads_bind (quiet_iget _) fun _ => leads_pure _) (ih _))
      (leads_pure _)

theorem quiet_dirlookup (name : Name) : Quiet stops (dirlookup dp name) :=
  leads_read_bind fun _ => leads_ite (quiet_fsPanic (by decide)) (quiet_dirlookupFrom _ _ _)

theorem quiet_dirlinkFrom (fuel off : Nat) : Quiet stops (dirlinkFrom dp fuel off) := by
  induction fuel generalizing off with
  | zero => exact leads_pure _
  | succ fuel ih =>
    exact leads_read_bind fun _ => leads_ite
      (leads_bind (quiet_readDirent _ (by decide)) fun _ => leads_ite
        (leads_pure _) (ih _)) (leads_pure _)

theorem quiet_isdiremptyFrom (fuel off : Nat) : Quiet stops (isdiremptyFrom dp fuel off) := by
  induction fuel generalizing off with
  | zero => exact leads_pure _
  | succ fuel ih =>
    exact leads_read_bind fun _ => leads_ite
      (leads_bind (quiet_readDirent _ (by decide)) fun _ => leads_ite
        (leads_pure _) (ih _)) (leads_pure _)

theorem quiet_mayUnlink (ip : InodeRef) : Quiet stops (mayUnlink ip) :=
  leads_read_bind fun _ => leads_ite
    (leads_read_bind fun _ => quiet_isdiremptyFrom _ _) (leads_pure _)

theorem quiet_ialloc (type : UInt16) : Quiet stops (ialloc type) := by
  refine leads_read_bind fun fs => ?_
  split
  · exact leads_pure _
  · exact leads_bind (quiet_writeDinode _ _) fun _ =>
      leads_bind (quiet_iget _) fun _ => leads_pure _

section Free

/-! Code that calls `bfree`. -/

variable (hfree : stops (.panic "freeing free block"))
include hfree

theorem quiet_bfree (b : Nat) : Keeps stops Inv (bfree b) :=
  leads_read_bind fun _ => leads_ite (quiet_logWrite _ _) (leads_panic hfree)

theorem quiet_itruncDirect (i : Fin (NDIRECT + 1)) : Keeps stops Inv (itruncDirect ip i) :=
  leads_read_bind fun _ => leads_when
    (leads_bind (quiet_bfree hfree _) fun _ => steady_setInode fun _ => rfl)

theorem quiet_itruncIndirect : Keeps stops Inv (itruncIndirect ip) :=
  leads_read_bind fun _ => leads_when (leads_bind (leads_forEach (fun _ => leads_read_bind fun _ =>
      leads_when (quiet_bfree hfree _)) _) fun _ =>
    leads_bind (quiet_bfree hfree _) fun _ => steady_setInode fun _ => rfl)

theorem quiet_itrunc : Keeps stops Inv (itrunc ip) :=
  leads_bind (leads_forEach (fun _ => quiet_itruncDirect hfree _) _) fun _ =>
    leads_bind (quiet_itruncIndirect hfree) fun _ =>
      leads_bind (steady_setInode fun _ => rfl) fun _ => quiet_iupdate ip

theorem quiet_iput : Keeps stops Inv (iput ip) :=
  leads_read_bind fun _ => leads_bind (leads_when (leads_bind
    (leads_read_bind fun _ => leads_ite (leads_stop Mild.sleep)
      (steady_setInode fun _ => rfl)) fun _ =>
    leads_bind (quiet_itrunc hfree) fun _ => leads_bind (steady_setInode fun _ => rfl) fun _ =>
      leads_bind (quiet_iupdate ip) fun _ => leads_bind (steady_setInode fun _ => rfl)
        fun _ => steady_setInode fun _ => rfl)) fun _ => steady_setInode fun _ => rfl

theorem quiet_iunlockput : Keeps stops Inv (iunlockput ip) :=
  leads_bind (quiet_iunlock ip) fun _ => quiet_iput hfree

end Free

theorem quiet_beginOp : Keeps stops Inv beginOp := by
  intro fs hinv
  unfold ends beginOp
  by_cases hwait : fs.log.MustWait
  · rw [if_pos hwait]
    exact Mild.sleep
  · rw [if_neg hwait]
    exact Steady.keep hinv fun _ => rfl

theorem quiet_endOp : Keeps stops Inv endOp := by
  intro fs hinv
  unfold ends endOp Log.finish
  by_cases hcommitting : fs.log.committing = true
  · rw [if_pos hcommitting]
    exact Mild.panic _ (by decide)
  rw [if_neg hcommitting]
  by_cases hlast : fs.log.outstanding - 1 = 0
  · simp only [hlast, if_true]
    exact Steady.keep hinv fun _ => rfl
  · simp only [hlast, if_false]
    exact Steady.keep hinv fun _ => rfl

section Calls

/-! Code that goes through names. -/

variable (hfree : stops (.panic "freeing free block"))
  (hlock : stops (.panic "ilock: no type"))

include hfree in
theorem quiet_dirlink (name : Name) (inum : Nat) : Quiet stops (dirlink dp name inum) := by
  refine leads_bind (quiet_dirlookup name) fun found => ?_
  split
  · exact leads_bind (quiet_iput hfree) fun _ => leads_pure _
  · exact leads_read_bind fun _ => leads_bind (quiet_dirlinkFrom _ _)
      fun _ => leads_bind (quiet_writei _ _ _) fun _ => leads_pure _

include hlock in
theorem quiet_ilock (ip : InodeRef) : Keeps stops Inv (ilock ip) :=
  leads_read_bind fun _ => leads_ite (quiet_fsPanic (by decide))
    (leads_bind (leads_read_bind fun _ =>
      leads_ite (leads_stop Mild.sleep) (steady_setInode fun _ => rfl)) fun _ =>
      leads_ite (leads_pure ()) (leads_bind (steady_setInode fun _ => rfl) fun _ =>
        leads_ite (leads_panic hlock) (leads_pure ())))

include hfree in
theorem quiet_iputCwd (cwd : Option InodeRef) : Keeps stops Inv (iputCwd cwd) := by
  cases cwd with
  | none => exact quiet_fsPanic (by decide)
  | some cwd => exact quiet_iput hfree

omit [Mild stops] in
theorem quiet_idup (ip : InodeRef) : Quiet stops (idup ip) :=
  leads_bind (quiet_update _) fun _ => leads_pure _

include hfree hlock

theorem quiet_namexFrom (parent : Bool) (fuel : Nat) (ip : InodeRef)
    (path : Name) : Quiet stops (namexFrom parent fuel ip path) := by
  induction fuel generalizing ip path with
  | zero => exact leads_pure _
  | succ fuel ih =>
    unfold namexFrom
    split
    · exact leads_ite (leads_bind (quiet_iput hfree) fun _ => leads_pure _) (leads_pure _)
    refine leads_bind (quiet_ilock hlock ip) fun _ =>
      leads_read_bind fun _ => leads_ite (leads_bind (quiet_iunlockput hfree) fun _ => leads_pure _)
        (leads_ite (leads_bind (quiet_iunlock ip) fun _ => leads_pure _)
          (leads_bind (quiet_dirlookup _) fun next =>
            leads_bind (quiet_iunlockput hfree) fun _ => ?_))
    split
    · exact leads_pure _
    · exact ih _ _

theorem quiet_namex (cwd : Option InodeRef) (path : Name) (parent : Bool) :
    Quiet stops (namex cwd path parent) := by
  unfold namex
  refine leads_ite (leads_bind (quiet_iget _) fun _ =>
    quiet_namexFrom hfree hlock _ _ _ _) ?_
  split
  · exact leads_bind (quiet_idup _) fun _ =>
      quiet_namexFrom hfree hlock _ _ _ _
  · exact leads_bind (quiet_fsPanic (by decide)) fun _ =>
      quiet_namexFrom hfree hlock _ _ _ _

theorem quiet_namei (cwd : Option InodeRef) (path : Name) : Quiet stops (namei cwd path) :=
  leads_bind (quiet_namex hfree hlock _ _ _) fun _ => leads_pure _

theorem quiet_createLink (name : Name) (type major minor : UInt16) :
    Quiet stops (createLink dp ip name type major minor) := by
  have hdots : Quiet stops (createDots dp ip type) :=
    leads_read_bind fun _ => leads_ite (leads_bind (quiet_dirlink hfree _ _) fun _ =>
        leads_ite (quiet_dirlink hfree _ _) (leads_pure _)) (leads_pure _)
  have hentries : Quiet stops (createEntries dp ip name type) :=
    leads_bind hdots fun _ => leads_read_bind fun _ =>
      leads_ite (quiet_dirlink hfree _ _) (leads_pure _)
  exact leads_bind (quiet_ilock hlock ip) fun _ => leads_bind (quiet_update _)
    fun _ => leads_bind (quiet_iupdate ip) fun _ => leads_bind hentries
    fun _ => leads_ite (leads_bind (leads_when (leads_bind (quiet_update _) fun _ =>
        quiet_iupdate dp)) fun _ =>
        leads_bind (quiet_iunlockput hfree) fun _ => leads_pure _)
      (leads_bind (quiet_update _) fun _ => leads_bind (quiet_iupdate ip)
        fun _ => leads_bind (quiet_iunlockput hfree) fun _ =>
          leads_bind (quiet_iunlockput hfree) fun _ => leads_pure _)

variable (cwd : Option InodeRef)

theorem quiet_create (path : Name) (type major minor : UInt16) :
    Quiet stops (create cwd path type major minor) := by
  refine leads_bind (quiet_namex hfree hlock _ _ _) fun found => ?_
  split
  · exact leads_pure _
  refine leads_bind (quiet_ilock hlock _) fun _ =>
    leads_bind (quiet_dirlookup _) fun entry => ?_
  split
  · exact leads_bind (quiet_iunlockput hfree) fun _ =>
      leads_bind (quiet_ilock hlock _) fun _ =>
        leads_read_bind fun _ => leads_ite (leads_pure _)
          (leads_bind (quiet_iunlockput hfree) fun _ => leads_pure _)
  · refine leads_bind (quiet_ialloc _) fun ip => ?_
    split
    · exact leads_bind (quiet_iunlockput hfree) fun _ => leads_pure _
    · exact quiet_createLink hfree hlock _ _ _ _

theorem quiet_openInode (path : Name) (omode : UInt32) :
    Quiet stops (openInode cwd path omode) := by
  refine leads_ite (quiet_create hfree hlock _ _ _ _ _)
    (leads_bind (quiet_namei hfree hlock _ _) fun found => ?_)
  split
  · exact leads_pure _
  · exact leads_bind (quiet_ilock hlock _) fun _ =>
      leads_read_bind fun _ => leads_ite (leads_bind (quiet_iunlockput hfree) fun _ => leads_pure _)
        (leads_pure _)

theorem quiet_make (path : Name) (type major minor : UInt16) :
    Quiet stops (make cwd path type major minor) := by
  refine leads_bind (quiet_create hfree hlock _ _ _ _ _) fun ip => ?_
  split
  · exact leads_pure _
  · exact leads_bind (quiet_iunlockput hfree) fun _ => leads_pure _

theorem quiet_link (old new : Name) : Quiet stops (link cwd old new) := by
  have hbad : ∀ ip, Quiet stops (linkBad ip) := fun ip =>
    leads_bind (quiet_ilock hlock ip) fun _ => leads_bind (quiet_update _)
      fun _ => leads_bind (quiet_iupdate ip) fun _ =>
        leads_bind (quiet_iunlockput hfree) fun _ => leads_pure _
  have hname : ∀ ip, Quiet stops (linkName cwd ip new) := by
    intro ip
    refine leads_bind (quiet_namex hfree hlock _ _ _) fun found => ?_
    split
    · exact hbad ip
    · exact leads_bind (quiet_ilock hlock _) fun _ =>
        leads_read_bind fun _ => leads_bind (quiet_dirlink hfree _ _)
          fun _ => leads_bind (quiet_iunlockput hfree) fun _ =>
            leads_ite (leads_bind (quiet_iput hfree) fun _ => leads_pure _) (hbad ip)
  refine leads_bind (quiet_namei hfree hlock _ _) fun found => ?_
  split
  · exact leads_pure _
  · exact leads_bind (quiet_ilock hlock _) fun _ =>
      leads_read_bind fun _ => leads_ite (leads_bind (quiet_iunlockput hfree) fun _ => leads_pure _)
        (leads_bind (quiet_update _) fun _ => leads_bind (quiet_iupdate _)
          fun _ => leads_bind (quiet_iunlock _) fun _ => hname _)

theorem quiet_unlink (path : Name) : Quiet stops (unlink cwd path) := by
  have hentry : ∀ dp ip off, Quiet stops (unlinkEntry dp ip off) :=
    fun dp ip off => leads_bind (quiet_writei _ _ _) fun _ =>
      leads_ite (quiet_fsPanic (by decide)) (leads_read_bind fun _ =>
        leads_bind (leads_when (leads_bind (quiet_update _) fun _ =>
          quiet_iupdate dp)) fun _ => leads_bind (quiet_iunlockput hfree)
          fun _ => leads_bind (quiet_update _) fun _ =>
            leads_bind (quiet_iupdate ip) fun _ =>
              leads_bind (quiet_iunlockput hfree) fun _ => leads_pure _)
  refine leads_bind (quiet_namex hfree hlock _ _ _) fun found => ?_
  split
  · exact leads_pure _
  refine leads_bind (quiet_ilock hlock _) fun _ => leads_ite
    (leads_bind (quiet_iunlockput hfree) fun _ => leads_pure _)
    (leads_bind (quiet_dirlookup _) fun entry => ?_)
  split
  · exact leads_bind (quiet_iunlockput hfree) fun _ => leads_pure _
  exact leads_bind (quiet_ilock hlock _) fun _ =>
    leads_read_bind fun _ => leads_ite (quiet_fsPanic (by decide))
      (leads_bind (quiet_mayUnlink _) fun _ => leads_ite (hentry _ _ _)
        (leads_bind (quiet_iunlockput hfree) fun _ =>
          leads_bind (quiet_iunlockput hfree) fun _ => leads_pure _))

end Calls

end Quiet

end CkptKernel
