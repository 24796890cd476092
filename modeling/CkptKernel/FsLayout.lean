/-
The on-disk format of kernel/fs.h: where inodes and free-map bits lie, and
how the bytes of a block hold them.
-/
import Mathlib.Logic.Function.Basic
import Mathlib.Data.Nat.Bitwise
import CkptKernel.LogDisk

namespace CkptKernel

open ByteMem

/-- The fields of `struct superblock` that file system code reads. -/
structure Superblock where
  size : Nat
  ninodes : Nat
  inodestart : Nat
  bmapstart : Nat
deriving DecidableEq, Repr

def IBLOCK (i : Nat) (sb : Superblock) : Nat := i / IPB + sb.inodestart

/-- Block of free map containing bit for block `b`. -/
def BBLOCK (b : Nat) (sb : Superblock) : Nat := b / BPB + sb.bmapstart

/-- First block after the free map, which `mkfs` gives `size / BPB + 1`
blocks. -/
def Superblock.datastart (sb : Superblock) : Nat :=
  sb.bmapstart + sb.size / BPB + 1

def T_DIR : UInt16 := 1
def T_FILE : UInt16 := 2
def T_DEVICE : UInt16 := 3

@[ext]
structure Dinode where
  type : UInt16
  major : UInt16
  minor : UInt16
  nlink : UInt16
  size : UInt32
  addrs : Fin (NDIRECT + 1) → UInt32

def indirectSlot : Fin (NDIRECT + 1) := Fin.last NDIRECT

def Dinode.withAddr (dn : Dinode) (i : Fin (NDIRECT + 1)) (b : Nat) : Dinode :=
  { dn with addrs := Function.update dn.addrs i (UInt32.ofNat b) }

/-- What `ialloc` leaves of a disk inode: `memset` and a type. -/
def Dinode.fresh (type : UInt16) : Dinode :=
  ⟨type, 0, 0, 0, 0, fun _ => 0⟩

def getDinode (data : Block) (k : Nat) : Dinode where
  type := UInt16.ofNat (getLE data (64 * k) 2)
  major := UInt16.ofNat (getLE data (64 * k + 2) 2)
  minor := UInt16.ofNat (getLE data (64 * k + 4) 2)
  nlink := UInt16.ofNat (getLE data (64 * k + 6) 2)
  size := UInt32.ofNat (getLE data (64 * k + 8) 4)
  addrs := fun i => UInt32.ofNat (getLE data (64 * k + 12 + 4 * i) 4)

def putAddrs (addrs : Fin (NDIRECT + 1) → UInt32) (data : Block) (off : Nat) : Block := fun addr =>
  if h : off ≤ addr ∧ addr < off + 4 * (NDIRECT + 1) then
    leByte (addrs ⟨(addr - off) / 4, by omega⟩).toNat ((addr - off) % 4)
  else data addr

/-- Assign every field of `(struct dinode*)data + k`. -/
def putDinode (dn : Dinode) (data : Block) (k : Nat) : Block :=
  let data := putLE data (64 * k) 2 dn.type.toNat
  let data := putLE data (64 * k + 2) 2 dn.major.toNat
  let data := putLE data (64 * k + 4) 2 dn.minor.toNat
  let data := putLE data (64 * k + 6) 2 dn.nlink.toNat
  let data := putLE data (64 * k + 8) 4 dn.size.toNat
  putAddrs dn.addrs data (64 * k + 12)

section

variable (addrs : Fin (NDIRECT + 1) → UInt32) (data : Block)

theorem putAddrs_outside {off addr : Nat} (hout : addr < off ∨ off + 52 ≤ addr) :
    putAddrs addrs data off addr = data addr := by
  have hnot : ¬ (off ≤ addr ∧ addr < off + 4 * (NDIRECT + 1)) := by
    simp only [NDIRECT]
    omega
  simp [putAddrs, hnot]

theorem getLE_putAddrs_before {off at' width : Nat} (hbefore : at' + width ≤ off) :
    getLE (putAddrs addrs data off) at' width = getLE data at' width := by
  apply getLE_congr
  intro addr _ hhigh
  exact putAddrs_outside addrs data (Or.inl (by omega))

theorem getLE_putAddrs (off : Nat) (i : Fin (NDIRECT + 1)) :
    getLE (putAddrs addrs data off) (off + 4 * i) 4 = (addrs i).toNat := by
  have hi : i.val < NDIRECT + 1 := i.isLt
  have hread : getLE (putAddrs addrs data off) (off + 4 * i) 4 =
      (addrs i).toNat / 256 ^ 0 % 256 ^ 4 := by
    apply getLE_of_leBytes
    intro k hk
    have hin : off ≤ off + 4 * i + k ∧ off + 4 * i + k < off + 4 * (NDIRECT + 1) := by omega
    have hdiv : (off + 4 * i.val + k - off) / 4 = i.val := by omega
    have hmod : (off + 4 * i.val + k - off) % 4 = 0 + k := by omega
    simp only [putAddrs, hin, and_self, dite_true, hdiv, hmod, Fin.eta]
  rw [hread, pow_zero, Nat.div_one]
  exact Nat.mod_eq_of_lt (addrs i).toNat_lt

end

/-- A disk inode reads back as it was written. -/
@[simp] theorem getDinode_putDinode_same (dn : Dinode) (data : Block)
    (k : Nat) : getDinode (putDinode dn data k) k = dn := by
  have htype := dn.type.toNat_lt
  have hmajor := dn.major.toNat_lt
  have hminor := dn.minor.toNat_lt
  have hnlink := dn.nlink.toNat_lt
  have hsize := dn.size.toNat_lt
  -- each field is read past the writes of those after it
  simp (disch := omega) only [getDinode, putDinode, getLE_putAddrs_before,
    getLE_putLE_disjoint, getLE_putLE_same, getLE_putAddrs, UInt16.ofNat_toNat, UInt32.ofNat_toNat]

/-- A disk inode depends only on its own 64 bytes. -/
theorem getDinode_congr {left right : Block} {k : Nat}
    (hsame : ∀ addr, 64 * k ≤ addr → addr < 64 * k + 64 → left addr = right addr) :
    getDinode left k = getDinode right k := by
  have hfield : ∀ off width, off + width ≤ 64 →
      getLE left (64 * k + off) width = getLE right (64 * k + off) width := by
    intro off width hfits
    apply getLE_congr
    intro addr hlow hhigh
    exact hsame addr (by omega) (by omega)
  apply Dinode.ext
  · simp only [getDinode]
    rw [show 64 * k = 64 * k + 0 by omega, hfield 0 2 (by omega)]
  · simp only [getDinode, hfield 2 2 (by omega)]
  · simp only [getDinode, hfield 4 2 (by omega)]
  · simp only [getDinode, hfield 6 2 (by omega)]
  · simp only [getDinode, hfield 8 4 (by omega)]
  · funext i
    have hi : i.val < NDIRECT + 1 := i.isLt
    simp only [NDIRECT] at hi
    simp only [getDinode]
    rw [show 64 * k + 12 + 4 * i.val = 64 * k + (12 + 4 * i.val) by omega,
      hfield (12 + 4 * i.val) 4 (by omega)]

theorem getDinode_putDinode_ne (dn : Dinode) (data : Block) {j k : Nat}
    (hne : j ≠ k) : getDinode (putDinode dn data k) j = getDinode data j := by
  apply getDinode_congr
  intro addr hlow hhigh
  simp (disch := omega) only [putDinode, putAddrs_outside, putLE_outside]

/-- `1 << (bi % 8)`. -/
def bitMask (bi : Nat) : UInt8 := UInt8.ofNat (2 ^ (bi % 8))

def bitSet (data : Block) (bi : Nat) : Bool :=
  data (bi / 8) &&& bitMask bi != 0

def setBit (data : Block) (bi : Nat) : Block :=
  Function.update data (bi / 8) (data (bi / 8) ||| bitMask bi)

def clearBit (data : Block) (bi : Nat) : Block :=
  Function.update data (bi / 8) (data (bi / 8) &&& ~~~ bitMask bi)

theorem bitMask_toNat (bi : Nat) : (bitMask bi).toNat = 2 ^ (bi % 8) := by
  have hlt : 2 ^ (bi % 8) < 2 ^ 8 :=
    Nat.pow_lt_pow_right (by omega) (by omega)
  rw [bitMask, UInt8.toNat_ofNat']
  exact Nat.mod_eq_of_lt hlt

theorem bitMask_getLsbD (bi j : Nat) : (bitMask bi).toBitVec.getLsbD j = decide (j = bi % 8) := by
  rw [← BitVec.testBit_toNat]
  change (bitMask bi).toNat.testBit j = _
  rw [bitMask_toNat, Nat.testBit_two_pow]
  simp [eq_comm]

theorem bitSet_eq (data : Block) (bi : Nat) :
    bitSet data bi = (data (bi / 8)).toBitVec.getLsbD (bi % 8) := by
  have hand : (data (bi / 8) &&& bitMask bi).toNat =
      ((data (bi / 8)).toNat.testBit (bi % 8)).toNat * 2 ^ (bi % 8) := by
    rw [UInt8.toNat_and, bitMask_toNat, Nat.and_two_pow]
  have hne : (data (bi / 8) &&& bitMask bi != 0) = ((data (bi / 8) &&& bitMask bi).toNat != 0) := by
    simp [bne, UInt8.toNat_inj.symm]
  rw [bitSet, ← BitVec.testBit_toNat, hne, hand]
  change _ = (data (bi / 8)).toNat.testBit (bi % 8)
  cases (data (bi / 8)).toNat.testBit (bi % 8) <;> simp

@[simp] theorem bitSet_setBit (data : Block) (bi bj : Nat) :
    bitSet (setBit data bi) bj = (decide (bj = bi) || bitSet data bj) := by
  rw [bitSet_eq, bitSet_eq, setBit]
  by_cases hbyte : bj / 8 = bi / 8
  · rw [hbyte, Function.update_self, UInt8.toBitVec_or, BitVec.getLsbD_or,
      bitMask_getLsbD, Bool.or_comm]
    congr 2
    simp only [eq_iff_iff]
    omega
  · rw [Function.update_of_ne hbyte]
    have hne : bj ≠ bi := fun heq => hbyte (by rw [heq])
    simp [hne]

@[simp] theorem bitSet_clearBit (data : Block) (bi bj : Nat) :
    bitSet (clearBit data bi) bj = (decide (bj ≠ bi) && bitSet data bj) := by
  rw [bitSet_eq, bitSet_eq, clearBit]
  by_cases hbyte : bj / 8 = bi / 8
  · rw [hbyte, Function.update_self, UInt8.toBitVec_and, UInt8.toBitVec_not,
      BitVec.getLsbD_and, BitVec.getLsbD_not, bitMask_getLsbD, Bool.and_comm]
    have hlt : bj % 8 < 8 := by omega
    have hiff : (bj % 8 = bi % 8) ↔ bj = bi := by omega
    simp [hlt, hiff]
  · rw [Function.update_of_ne hbyte]
    have hne : bj ≠ bi := fun heq => hbyte (by rw [heq])
    simp [hne]

end CkptKernel
