/-
Which blocks the inodes of a file system refer to, and what single block
writes do to that.  The inodes are given by a function, so that an inode whose
in-memory copy is ahead of the disk can be looked at as well.
-/
import CkptKernel.Fs
import CkptKernel.Lib.Ownership

namespace CkptKernel

open ByteMem Code Ownership
open Function (update_of_ne)

/-- The areas of the disk do not overlap: inode blocks lie before the free
map, which `datastart` ends. -/
structure Layout (sb : Superblock) : Prop where
  inodes : ∀ inum, inum < sb.ninodes → IBLOCK inum sb < sb.bmapstart
  size : sb.size < 2 ^ 32

variable {b : Nat} {sb : Superblock}

theorem BBLOCK_lt_datastart (hb : b < sb.size) : BBLOCK b sb < sb.datastart := by
  have hdiv : b / BPB ≤ sb.size / BPB := Nat.div_le_div_right (Nat.le_of_lt hb)
  simp only [BBLOCK, Superblock.datastart]
  omega

variable {inum : Nat}

theorem Layout.IBLOCK_lt_datastart (hlayout : Layout sb) (hinum : inum < sb.ninodes) :
    IBLOCK inum sb < sb.datastart := by
  have hlt := hlayout.inodes inum hinum
  exact Nat.lt_succ_of_lt (Nat.lt_of_lt_of_le hlt (Nat.le_add_right _ _))

theorem Layout.IBLOCK_ne_BBLOCK (hlayout : Layout sb) (hinum : inum < sb.ninodes) :
    IBLOCK inum sb ≠ BBLOCK b sb := by
  have hlt := hlayout.inodes inum hinum
  have hle : sb.bmapstart ≤ BBLOCK b sb := by simp [BBLOCK]
  omega

def Fs.put (fs : Fs) (blockno : Nat) (data : Block) (log : Log) : Fs :=
  { fs with disk := Function.update fs.disk blockno data, log := log }

section Put

variable (fs : Fs) (blockno : Nat) (data : Block) (log : Log)

@[simp] theorem put_sb : (fs.put blockno data log).sb = fs.sb := rfl

@[simp] theorem put_inode : (fs.put blockno data log).inode = fs.inode := rfl

@[simp] theorem put_log : (fs.put blockno data log).log = log := rfl

theorem put_disk : (fs.put blockno data log).disk = Function.update fs.disk blockno data := rfl

end Put

variable {fs : Fs} {blockno : Nat}

theorem wlp_logWrite {data : Block} {post : Unit → Fs → Prop} :
    wlp (logWrite blockno data) fs post ↔ ∀ log, fs.log.write blockno = .ok log →
        post () (fs.put blockno data log) := by
  unfold wlp logWrite
  cases hlog : fs.log.write blockno with
  | error reason => simp
  | ok log =>
    constructor
    · intro h _ heq
      cases heq
      exact h () _ rfl
    · intro h _ _ heq
      cases heq
      exact h log rfl

variable {c : Nat}

/-- Writes outside the free map leave it alone. -/
theorem used_put_of_ne (data : Block) (log : Log) (hne : BBLOCK c fs.sb ≠ blockno) :
    (fs.put blockno data log).used c = fs.used c := by
  simp [Fs.used, put_disk, update_of_ne hne]

/-- Writes outside the inode blocks leave the inodes alone. -/
theorem dinode_put_of_ne (data : Block) (log : Log) (hne : IBLOCK inum fs.sb ≠ blockno) :
    (fs.put blockno data log).dinode inum = fs.dinode inum := by
  simp [Fs.dinode, put_disk, update_of_ne hne]

/-- The state after `balloc` has taken block `b`. -/
def Fs.give (fs : Fs) (b : Nat) (log : Log) : Fs :=
  (fs.put (BBLOCK b fs.sb) (setBit (fs.disk (BBLOCK b fs.sb)) (b % BPB))
    fs.log).put b (fun _ => 0) log

/-- The state after `bfree` has released block `b`. -/
def Fs.take (fs : Fs) (b : Nat) (log : Log) : Fs :=
  fs.put (BBLOCK b fs.sb) (clearBit (fs.disk (BBLOCK b fs.sb)) (b % BPB)) log

/-- The state after a disk inode has been assigned. -/
def Fs.putInode (fs : Fs) (inum : Nat) (dn : Dinode) (log : Log) : Fs :=
  fs.put (IBLOCK inum fs.sb)
    (putDinode dn (fs.disk (IBLOCK inum fs.sb)) (inum % IPB)) log

section Updates

variable (fs : Fs) (b inum : Nat) (dn : Dinode) (log : Log)

@[simp] theorem give_sb : (fs.give b log).sb = fs.sb := rfl

@[simp] theorem give_inode : (fs.give b log).inode = fs.inode := rfl

@[simp] theorem take_sb : (fs.take b log).sb = fs.sb := rfl

@[simp] theorem putInode_inode : (fs.putInode inum dn log).inode = fs.inode := rfl

end Updates

/-- The bits of different blocks are different bits. -/
theorem bit_cases (b c : Nat) (sb : Superblock) :
    (BBLOCK c sb = BBLOCK b sb ∧ (c % BPB = b % BPB ↔ c = b)) ∨
      (BBLOCK c sb ≠ BBLOCK b sb ∧ c ≠ b) := by
  by_cases hblock : BBLOCK c sb = BBLOCK b sb
  · refine Or.inl ⟨hblock, fun hbit => ?_, fun heq => by rw [heq]⟩
    simp only [BBLOCK, Nat.add_right_cancel_iff] at hblock
    rw [← Nat.div_add_mod c BPB, ← Nat.div_add_mod b BPB, hblock, hbit]
  · exact Or.inr ⟨hblock, fun heq => hblock (by rw [heq])⟩

theorem give_used (log : Log) (hb : fs.sb.datastart ≤ b) (hc : c < fs.sb.size) :
    (fs.give b log).used c = (decide (c = b) || fs.used c) := by
  have hne : BBLOCK c fs.sb ≠ b := by
    have hlt := BBLOCK_lt_datastart hc
    omega
  rw [Fs.give, used_put_of_ne _ _ (by simpa using hne)]
  rcases bit_cases b c fs.sb with ⟨hblock, hiff⟩ | ⟨hblock, hcb⟩
  · simp [Fs.used, put_disk, hblock, hiff]
  · rw [used_put_of_ne _ _ hblock]
    simp [hcb]

theorem take_used (fs : Fs) (b c : Nat) (log : Log) :
    (fs.take b log).used c = (decide (c ≠ b) && fs.used c) := by
  rw [Fs.take]
  rcases bit_cases b c fs.sb with ⟨hblock, hiff⟩ | ⟨hblock, hcb⟩
  · simp [Fs.used, put_disk, hblock, hiff]
  · rw [used_put_of_ne _ _ hblock]
    simp [hcb]

theorem give_dinode (hlayout : Layout fs.sb) (log : Log) (hb : fs.sb.datastart ≤ b)
    (hinum : inum < fs.sb.ninodes) : (fs.give b log).dinode inum = fs.dinode inum := by
  have hlt := hlayout.IBLOCK_lt_datastart hinum
  rw [Fs.give, dinode_put_of_ne _ _ (by rw [put_sb]; omega),
    dinode_put_of_ne _ _ (hlayout.IBLOCK_ne_BBLOCK hinum)]

theorem take_dinode (hlayout : Layout fs.sb) (log : Log) (hinum : inum < fs.sb.ninodes) :
    (fs.take b log).dinode inum = fs.dinode inum :=
  dinode_put_of_ne _ _ (hlayout.IBLOCK_ne_BBLOCK hinum)

theorem give_disk_of_ne (log : Log) (hb : b < fs.sb.size) (hc : fs.sb.datastart ≤ c) (hne : c ≠ b) :
    (fs.give b log).disk c = fs.disk c := by
  have hlt := BBLOCK_lt_datastart hb
  rw [Fs.give, put_disk, update_of_ne hne, put_disk, update_of_ne (by omega)]

theorem take_disk (log : Log) (hb : b < fs.sb.size)
    (hc : fs.sb.datastart ≤ c) : (fs.take b log).disk c = fs.disk c := by
  have hlt := BBLOCK_lt_datastart hb
  rw [Fs.take, put_disk, update_of_ne (by omega)]

theorem putInode_dinode (fs : Fs) (inum other : Nat) (dn : Dinode)
    (log : Log) : (fs.putInode inum dn log).dinode other =
      if other = inum then dn else fs.dinode other := by
  by_cases hblock : IBLOCK other fs.sb = IBLOCK inum fs.sb
  · by_cases heq : other = inum
    · simp [Fs.putInode, Fs.dinode, put_disk, heq]
    have hne : other % IPB ≠ inum % IPB := by
      intro hmod
      simp only [IBLOCK, Nat.add_right_cancel_iff] at hblock
      apply heq
      rw [← Nat.div_add_mod other IPB, ← Nat.div_add_mod inum IPB, hblock, hmod]
    simp [Fs.putInode, Fs.dinode, put_disk, hblock, heq, getDinode_putDinode_ne _ _ hne]
  · have heq : other ≠ inum := fun heq => hblock (by rw [heq])
    rw [Fs.putInode, dinode_put_of_ne _ _ hblock, if_neg heq]

theorem putInode_used (hlayout : Layout fs.sb) (dn : Dinode) (log : Log)
    (hinum : inum < fs.sb.ninodes) : (fs.putInode inum dn log).used c = fs.used c :=
  used_put_of_ne _ _ (hlayout.IBLOCK_ne_BBLOCK hinum).symm

theorem putInode_disk {fs : Fs} (hlayout : Layout fs.sb) {inum c : Nat}
    (dn : Dinode) (log : Log) (hinum : inum < fs.sb.ninodes) (hc : fs.sb.datastart ≤ c) :
    (fs.putInode inum dn log).disk c = fs.disk c := by
  have hlt := hlayout.IBLOCK_lt_datastart hinum
  rw [Fs.putInode, put_disk, update_of_ne (by omega)]

end CkptKernel
