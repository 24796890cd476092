/-
Block ownership: every block an inode refers to, from a direct slot, the
indirect slot or an entry of its indirect block, is a data block marked in the
free map, and no two places refer to the same block.
-/
import CkptKernel.BlockMap

namespace CkptKernel

open ByteMem Code Ownership

/-- A place in an inode that can hold a block address. -/
inductive BlockSlot where
  | addr (i : Fin (NDIRECT + 1))
  | entry (j : Nat)
deriving DecidableEq, Repr

def BlockSlot.Valid : BlockSlot → Prop
  | .addr _ => True
  | .entry j => j < NINDIRECT

/-- The place that holds the address of the `bn`-th block of a file. -/
def slotOf (bn : Nat) : BlockSlot :=
  if h : bn < NDIRECT then .addr ⟨bn, Nat.lt_succ_of_lt h⟩
  else .entry (bn - NDIRECT)

theorem slotOf_valid {bn : Nat} (hbn : bn < MAXFILE) : (slotOf bn).Valid := by
  unfold slotOf
  simp only [MAXFILE] at hbn
  split
  · trivial
  · simp only [BlockSlot.Valid]
    omega

theorem slotOf_inj {left right : Nat} (heq : slotOf left = slotOf right) : left = right := by
  unfold slotOf at heq
  split at heq <;> split at heq
  · simpa using heq
  · cases heq
  · cases heq
  · simp only [BlockSlot.entry.injEq] at heq
    omega

theorem slotOf_ne_indirect (bn : Nat) : slotOf bn ≠ .addr indirectSlot := by
  unfold slotOf
  split
  · intro heq
    simp only [BlockSlot.addr.injEq, indirectSlot, Fin.ext_iff, Fin.val_last] at heq
    omega
  · intro heq
    cases heq

/-- The address at a place of a disk inode, 0 if there is none. -/
def Dinode.blockAt (dn : Dinode) (disk : Disk) : BlockSlot → Nat
  | .addr i => (dn.addrs i).toNat
  | .entry j =>
    if dn.addrs indirectSlot = 0 then 0
    else getLE (disk (dn.addrs indirectSlot).toNat) (4 * j) 4

/-- Addresses change only with the indirect block. -/
theorem blockAt_congr {dn : Dinode} {disk disk' : Disk} (slot : BlockSlot)
    (hsame : dn.addrs indirectSlot ≠ 0 → disk' (dn.addrs indirectSlot).toNat =
        disk (dn.addrs indirectSlot).toNat) : dn.blockAt disk' slot = dn.blockAt disk slot := by
  cases slot with
  | addr i => rfl
  | entry j =>
    by_cases hind : dn.addrs indirectSlot = 0
    · simp [Dinode.blockAt, hind]
    · simp [Dinode.blockAt, hind, hsame hind]

/-- The address at a place of the file system. -/
def placeAddr (dn : Nat → Dinode) (disk : Disk) (place : Nat × BlockSlot) : Nat :=
  (dn place.1).blockAt disk place.2

/-- The places that count: those of allocated inodes. -/
def LivePlace (sb : Superblock) (dn : Nat → Dinode)
    (place : Nat × BlockSlot) : Prop :=
  place.1 < sb.ninodes ∧ (dn place.1).type ≠ 0 ∧ place.2.Valid

/-- A data block that is marked in the free map. -/
def Fs.Given (fs : Fs) (b : Nat) : Prop :=
  fs.sb.datastart ≤ b ∧ b < fs.sb.size ∧ fs.used b = true

/-- Every block below the size of an inode is there. -/
structure Dinode.Full (dn : Dinode) (disk : Disk) : Prop where
  size : dn.size.toNat ≤ MAXFILE * BSIZE
  mapped : ∀ bn, bn * BSIZE < dn.size.toNat → dn.blockAt disk (slotOf bn) ≠ 0

/-- A file system whose inodes are `dn` is sound: the free map covers the
metadata and everything an inode refers to, no block has two owners, and no
file has holes. -/
structure Fs.Sound (fs : Fs) (dn : Nat → Dinode) : Prop where
  layout : Layout fs.sb
  marked : ∀ b, b < fs.sb.datastart → b < fs.sb.size → fs.used b = true
  owned : Owns (placeAddr dn fs.disk) (LivePlace fs.sb dn) fs.Given
  full : ∀ inum, inum < fs.sb.ninodes → (dn inum).type ≠ 0 → (dn inum).Full fs.disk

namespace Fs.Sound

variable {fs : Fs} {dn : Nat → Dinode}

section

variable (hsound : fs.Sound dn)
include hsound

theorem given (inum : Nat) (slot : BlockSlot) (hlive : LivePlace fs.sb dn (inum, slot))
    (hne : (dn inum).blockAt fs.disk slot ≠ 0) : fs.Given ((dn inum).blockAt fs.disk slot) :=
  hsound.owned.given (inum, slot) hlive hne

theorem unique (inum : Nat) (slot : BlockSlot) (inum' : Nat) (slot' : BlockSlot)
    (hlive : LivePlace fs.sb dn (inum, slot)) (hlive' : LivePlace fs.sb dn (inum', slot'))
    (hne : (dn inum).blockAt fs.disk slot ≠ 0)
    (heq : (dn inum).blockAt fs.disk slot = (dn inum').blockAt fs.disk slot') :
    inum = inum' ∧ slot = slot' := by
  have hplace := hsound.owned.unique (inum, slot) (inum', slot') hlive hlive' hne heq
  exact ⟨congrArg Prod.fst hplace, congrArg Prod.snd hplace⟩

theorem indirect_given {inum : Nat} (hinum : inum < fs.sb.ninodes) (htype : (dn inum).type ≠ 0)
    (hind : (dn inum).addrs indirectSlot ≠ 0) : fs.Given ((dn inum).addrs indirectSlot).toNat := by
  refine hsound.given inum (.addr indirectSlot) ⟨hinum, htype, trivial⟩ ?_
  intro hzero
  exact hind (UInt32.toNat_inj.mp hzero)

/-- Two states whose data blocks agree on every indirect block, with a free
map that still covers what it covered, are equally sound. -/
theorem congr {fs' : Fs} (hsb : fs'.sb = fs.sb)
    (hused : ∀ b, b < fs.sb.size → fs.used b = true → fs'.used b = true)
    (hind : ∀ inum, inum < fs.sb.ninodes → (dn inum).type ≠ 0 → (dn inum).addrs indirectSlot ≠ 0 →
      fs'.disk ((dn inum).addrs indirectSlot).toNat =
        fs.disk ((dn inum).addrs indirectSlot).toNat) : fs'.Sound dn := by
  have haddr : ∀ inum slot, inum < fs.sb.ninodes → (dn inum).type ≠ 0 →
      (dn inum).blockAt fs'.disk slot = (dn inum).blockAt fs.disk slot :=
    fun inum slot hinum htype =>
      blockAt_congr slot (hind inum hinum htype)
  refine ⟨hsb ▸ hsound.layout, ?_, ?_, ?_⟩
  · intro b hdata hsize
    rw [hsb] at hdata hsize
    exact hused b hsize (hsound.marked b hdata hsize)
  · refine hsound.owned.mono ?_ ?_
    · rintro ⟨inum, slot⟩ hlive _
      rw [hsb] at hlive
      exact ⟨hlive, haddr inum slot hlive.1 hlive.2.1⟩
    · rintro ⟨inum, slot⟩ _ _ ⟨hlow, hhigh, hmark⟩
      exact ⟨hsb ▸ hlow, hsb ▸ hhigh, hused _ hhigh hmark⟩
  · intro inum hinum htype
    rw [hsb] at hinum
    obtain ⟨hsize, hmapped⟩ := hsound.full inum hinum htype
    refine ⟨hsize, fun bn hbn => ?_⟩
    rw [haddr inum _ hinum htype]
    exact hmapped bn hbn

/-- A write to a block that is no inode's indirect block. -/
theorem put {blockno : Nat} (data : Block) (log : Log) (hdata : fs.sb.datastart ≤ blockno)
    (hind : ∀ inum, inum < fs.sb.ninodes → (dn inum).type ≠ 0 →
      ((dn inum).addrs indirectSlot).toNat ≠ blockno) : (fs.put blockno data log).Sound dn := by
  refine hsound.congr rfl ?_ ?_
  · intro b hsize hmark
    have hlt := BBLOCK_lt_datastart hsize
    rw [used_put_of_ne _ _ (by omega), hmark]
  · intro inum hinum htype _
    rw [put_disk, Function.update_of_ne (hind inum hinum htype)]

/-- A write to the data block of a file. -/
theorem put_data {inum bn : Nat} (data : Block) (log : Log) (hinum : inum < fs.sb.ninodes)
    (htype : (dn inum).type ≠ 0) (hbn : bn < MAXFILE)
    (hne : (dn inum).blockAt fs.disk (slotOf bn) ≠ 0) :
    (fs.put ((dn inum).blockAt fs.disk (slotOf bn)) data log).Sound dn := by
  have hlive : LivePlace fs.sb dn (inum, slotOf bn) :=
    ⟨hinum, htype, slotOf_valid hbn⟩
  refine hsound.put data log (hsound.given _ _ hlive hne).1 ?_
  intro other hother hotype heq
  have hplace := hsound.unique inum (slotOf bn) other (.addr indirectSlot)
    hlive ⟨hother, hotype, trivial⟩ hne heq.symm
  exact slotOf_ne_indirect bn hplace.2

theorem putInode {inum : Nat} (new : Dinode) (log : Log) (hinum : inum < fs.sb.ninodes) :
    (fs.putInode inum new log).Sound dn := by
  refine hsound.congr rfl ?_ ?_
  · intro b _ hmark
    rw [putInode_used hsound.layout _ _ hinum, hmark]
  · intro other hother hotype hind
    exact putInode_disk hsound.layout _ _ hinum (hsound.indirect_given hother hotype hind).1

end

variable {b : Nat}

section

variable (hsound : fs.Sound dn) (hfree : fs.firstFree = some b)
include hsound hfree

/-- What the allocator finds is a data block that nobody holds. -/
theorem firstFree : fs.sb.datastart ≤ b ∧ b < fs.sb.size ∧ fs.used b = false := by
  have hnot := List.find?_some hfree
  have hmem := List.mem_range.mp (List.mem_of_find?_eq_some hfree)
  have hused : fs.used b = false := by simpa using hnot
  refine ⟨?_, hmem, hused⟩
  by_contra hlow
  have hmark := hsound.marked b (by omega) hmem
  rw [hused] at hmark
  cases hmark

theorem not_given : ¬ fs.Given b := by
  rintro ⟨_, _, hmark⟩
  rw [(hsound.firstFree hfree).2.2] at hmark
  cases hmark

theorem firstFree_ne (inum : Nat) (slot : BlockSlot) (hlive : LivePlace fs.sb dn (inum, slot)) :
    (dn inum).blockAt fs.disk slot ≠ b := by
  intro heq
  have hb := hsound.firstFree hfree
  have hpos : 0 < fs.sb.datastart := Nat.succ_pos _
  apply hsound.not_given hfree
  rw [← heq]
  exact hsound.given inum slot hlive (by omega)

end

/-- Only the inodes of the disk matter. -/
theorem congr_inodes (hsound : fs.Sound dn) {dn' : Nat → Dinode}
    (hsame : ∀ inum, inum < fs.sb.ninodes → dn' inum = dn inum) : fs.Sound dn' := by
  refine ⟨hsound.layout, hsound.marked, ?_, ?_⟩
  · refine hsound.owned.mono ?_ (fun _ _ _ hgiven => hgiven)
    rintro ⟨inum, slot⟩ ⟨hinum, htype, hvalid⟩ _
    rw [hsame inum hinum] at htype
    exact ⟨⟨hinum, htype, hvalid⟩, by simp [placeAddr, hsame inum hinum]⟩
  · intro inum hinum htype
    rw [hsame inum hinum] at htype ⊢
    exact hsound.full inum hinum htype

/-- An empty place is filled with a block from the allocator. -/
theorem fill (hsound : fs.Sound dn) {fs' : Fs} {dn' : Nat → Dinode}
    {place : Nat × BlockSlot} (hfree : fs.firstFree = some b) (hsb : fs'.sb = fs.sb)
    (hused : ∀ c, c < fs.sb.size → c = b ∨ fs.used c = true → fs'.used c = true)
    (hplace : placeAddr dn' fs'.disk place = b) (hrest : ∀ p, p ≠ place → LivePlace fs.sb dn p →
      placeAddr dn' fs'.disk p = placeAddr dn fs.disk p)
    (htype : ∀ inum, inum < fs.sb.ninodes → (dn' inum).type = (dn inum).type)
    (hsize : ∀ inum, inum < fs.sb.ninodes → (dn' inum).size = (dn inum).size) : fs'.Sound dn' := by
  obtain ⟨hdata, hhigh, _⟩ := hsound.firstFree hfree
  have hpos : 0 < fs.sb.datastart := Nat.succ_pos _
  refine ⟨hsb ▸ hsound.layout, ?_, ?_, ?_⟩
  · intro c hlow hc
    rw [hsb] at hlow hc
    exact hused c hc (Or.inr (hsound.marked c hlow hc))
  · refine hsound.owned.insert (fun p hlive => hsound.firstFree_ne hfree p.1
      p.2 hlive) ⟨hsb ▸ hdata, hsb ▸ hhigh, hused b hhigh (Or.inl rfl)⟩
      hplace ?_ ?_
    · rintro p ⟨hinum, halloc, hvalid⟩ hne _
      rw [hsb] at hinum
      rw [htype _ hinum] at halloc
      exact ⟨⟨hinum, halloc, hvalid⟩, hrest p hne ⟨hinum, halloc, hvalid⟩⟩
    · rintro c ⟨hlow, hc, hmark⟩
      exact ⟨hsb ▸ hlow, hsb ▸ hc, hused c hc (Or.inr hmark)⟩
  · intro inum hinum halloc
    rw [hsb] at hinum
    rw [htype inum hinum] at halloc
    obtain ⟨hmax, hmapped⟩ := hsound.full inum hinum halloc
    refine ⟨hsize inum hinum ▸ hmax, fun bn hbn => ?_⟩
    rw [hsize inum hinum] at hbn
    by_cases heq : (inum, slotOf bn) = place
    · have haddr : (dn' inum).blockAt fs'.disk (slotOf bn) = b := by
        rw [← hplace, ← heq]
        rfl
      omega
    · have hlt : bn < MAXFILE := by
        have hlt := Nat.lt_of_lt_of_le hbn hmax
        exact Nat.lt_of_mul_lt_mul_right hlt
      have haddr := hrest (inum, slotOf bn) heq ⟨hinum, halloc, slotOf_valid hlt⟩
      simp only [placeAddr] at haddr
      rw [haddr]
      exact hmapped bn hbn

end Fs.Sound

variable {dn : Dinode} {disk : Disk} {b : Nat}

/-- Filling a slot of an inode with a zeroed block changes no other place, not
even when the slot is the indirect one. -/
theorem blockAt_withAddr_of_ne {disk' : Disk} {i : Fin (NDIRECT + 1)} {slot : BlockSlot}
    (hempty : dn.addrs i = 0) (hb : b < 2 ^ 32) (hzero : disk' b = fun _ => 0)
    (hsame : dn.addrs indirectSlot ≠ 0 →
      disk' (dn.addrs indirectSlot).toNat = disk (dn.addrs indirectSlot).toNat)
    (hne : slot ≠ .addr i) : (dn.withAddr i b).blockAt disk' slot = dn.blockAt disk slot := by
  cases slot with
  | addr k =>
    have hk : k ≠ i := fun heq => hne (by rw [heq])
    simp [Dinode.blockAt, Dinode.withAddr, Function.update_of_ne hk]
  | entry j =>
    by_cases hi : indirectSlot = i
    · have hnat : (UInt32.ofNat b).toNat = b := by
        rw [UInt32.toNat_ofNat']
        exact Nat.mod_eq_of_lt hb
      subst hi
      simp only [Dinode.blockAt, Dinode.withAddr, Function.update_self,
        hempty, if_true, hnat, hzero, getLE_zero, ite_self]
    · by_cases hind : dn.addrs indirectSlot = 0
      · simp [Dinode.blockAt, Dinode.withAddr, Function.update_of_ne hi, hind]
      · simp [Dinode.blockAt, Dinode.withAddr, Function.update_of_ne hi, hind, hsame hind]

theorem blockAt_withAddr_same {i : Fin (NDIRECT + 1)} (hb : b < 2 ^ 32) :
    (dn.withAddr i b).blockAt disk (.addr i) = b := by
  simp only [Dinode.blockAt, Dinode.withAddr, Function.update_self]
  rw [UInt32.toNat_ofNat']
  exact Nat.mod_eq_of_lt hb

/-- Filling an entry of the indirect block changes no other place. -/
theorem blockAt_putEntry {disk' : Disk} {j : Nat} (hind : dn.addrs indirectSlot ≠ 0)
    (hb : b < 2 ^ 32) (hput : disk' (dn.addrs indirectSlot).toNat =
      putLE (disk (dn.addrs indirectSlot).toNat) (4 * j) 4 b) (slot : BlockSlot) :
    dn.blockAt disk' slot = if slot = .entry j then b else dn.blockAt disk slot := by
  cases slot with
  | addr k => simp [Dinode.blockAt]
  | entry k =>
    simp only [Dinode.blockAt, hind, if_false, hput, BlockSlot.entry.injEq]
    by_cases hk : k = j
    · rw [hk, if_pos rfl, getLE_putLE_same _ (by omega)]
    · rw [if_neg hk, getLE_putLE_disjoint _ (by omega)]

end CkptKernel
