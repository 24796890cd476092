/-
The free map is exact: a data block that is marked in it belongs to some
allocated inode.
-/
import CkptKernel.BlockOwnership

namespace CkptKernel

open ByteMem Ownership

/-- Every data block that is marked in the free map is at some place of an
allocated inode. -/
def Fs.Tight (fs : Fs) (dn : Nat → Dinode) : Prop :=
  Covers (placeAddr dn fs.disk) (LivePlace fs.sb dn) fs.Given

theorem Fs.not_given_zero (fs : Fs) : ¬ fs.Given 0 := by
  rintro ⟨hdata, _, _⟩
  exact absurd hdata (Nat.not_le_of_lt (Nat.succ_pos _))

variable {fs : Fs} {dn dn' : Nat → Dinode}

/-- Places that hold a block keep it, and no block is given out. -/
theorem Fs.Tight.congr {fs' : Fs} (htight : fs.Tight dn) (hsb : fs'.sb = fs.sb)
    (hused : ∀ b, b < fs.sb.size → fs'.used b = true → fs.used b = true)
    (hplace : ∀ inum slot, LivePlace fs.sb dn (inum, slot) →
      (dn inum).blockAt fs.disk slot ≠ 0 → (dn' inum).type ≠ 0 ∧
        (dn' inum).blockAt fs'.disk slot = (dn inum).blockAt fs.disk slot) : fs'.Tight dn' := by
  refine Covers.mono htight ?_ ?_
  · rintro b ⟨hdata, hsize, hmark⟩
    rw [hsb] at hdata hsize
    exact ⟨hdata, hsize, hused b hsize hmark⟩
  rintro ⟨inum, slot⟩ hlive hgiven
  have hne : (dn inum).blockAt fs.disk slot ≠ 0 := by
    intro hzero
    rw [placeAddr, hzero] at hgiven
    exact fs'.not_given_zero hgiven
  obtain ⟨htype, hsame⟩ := hplace inum slot hlive hne
  exact ⟨⟨hsb ▸ hlive.1, htype, hlive.2.2⟩, hsame⟩

/-- Writing an inode block touches neither the free map nor a data block. -/
theorem Fs.Tight.putInode {fs : Fs} {dn : Nat → Dinode} (hsound : fs.Sound dn)
    (htight : fs.Tight dn) {inum : Nat} (new : Dinode) (log : Log)
    (hinum : inum < fs.sb.ninodes) : (fs.putInode inum new log).Tight dn := by
  refine htight.congr rfl ?_ ?_
  · intro b _ hmark
    rwa [putInode_used hsound.layout _ _ hinum] at hmark
  · rintro other slot ⟨hother, htype, _⟩ _
    exact ⟨htype, blockAt_congr slot fun hind =>
      putInode_disk hsound.layout _ _ hinum (hsound.indirect_given hother htype hind).1⟩

theorem Fs.Tight.congr_inodes (htight : fs.Tight dn)
    (hsame : ∀ inum, inum < fs.sb.ninodes → dn' inum = dn inum) : fs.Tight dn' := by
  refine htight.congr rfl (fun _ _ hmark => hmark) ?_
  rintro inum slot ⟨hinum, htype, _⟩ _
  rw [hsame inum hinum]
  exact ⟨htype, rfl⟩

/-- Inodes that differ in nothing but links, device numbers and size. -/
theorem Fs.Tight.reshape (htight : fs.Tight dn) (hshape : ∀ inum,
      (dn' inum).type = (dn inum).type ∧ (dn' inum).addrs = (dn inum).addrs) : fs.Tight dn' := by
  refine htight.congr rfl (fun _ _ hmark => hmark) ?_
  rintro inum slot ⟨_, htype, _⟩ _
  obtain ⟨hkind, haddrs⟩ := hshape inum
  refine ⟨hkind ▸ htype, ?_⟩
  cases slot <;> simp only [Dinode.blockAt, haddrs]

theorem blank_blockAt {dn : Dinode} (hblank : ∀ i, dn.addrs i = 0)
    (disk : Disk) (slot : BlockSlot) : dn.blockAt disk slot = 0 := by
  cases slot with
  | addr i => exact UInt32.toNat_inj.mpr (hblank i)
  | entry j => simp [Dinode.blockAt, hblank]

/-- An inode that owns nothing may become anything. -/
theorem Fs.Tight.unowned (htight : fs.Tight dn) {inum : Nat} (new : Dinode)
    (hnone : (dn inum).type = 0 ∨ ∀ i, (dn inum).addrs i = 0) :
    fs.Tight (Function.update dn inum new) := by
  refine htight.congr rfl (fun _ _ hmark => hmark) ?_
  rintro other slot ⟨_, htype, _⟩ hne
  by_cases heq : other = inum
  · subst heq
    rcases hnone with hfree | hblank
    · exact (htype hfree).elim
    · exact (hne (blank_blockAt hblank _ slot)).elim
  · rw [Function.update_of_ne heq]
    exact ⟨htype, rfl⟩

/-- The free map is exact for the inodes on the disk. -/
def Fs.Tidy (fs : Fs) : Prop := fs.Tight fs.dinode

theorem Fs.Tidy.of_disk {fs' : Fs} (htidy : fs.Tidy)
    (hdisk : fs'.disk = fs.disk) (hsb : fs'.sb = fs.sb) : fs'.Tidy := by
  have hdinode : fs'.dinode = fs.dinode := by
    funext inum
    rw [Fs.dinode, Fs.dinode, hdisk, hsb]
  unfold Fs.Tidy
  rw [hdinode]
  refine Fs.Tight.congr htidy hsb ?_ ?_
  · intro b _ hmark
    rwa [Fs.used, hdisk, hsb] at hmark
  · rintro inum slot ⟨_, htype, _⟩ _
    rw [hdisk]
    exact ⟨htype, rfl⟩

end CkptKernel
