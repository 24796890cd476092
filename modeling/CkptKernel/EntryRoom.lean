/-
Room for one more entry in a directory.  `dirlink` writes to the first empty
place; it fails only where the directory has its full size, or where the block
of that place is missing and the disk has no block left for it.
-/
import CkptKernel.FsView

namespace CkptKernel

open ByteMem Code

def View.place (v : View) (d : Nat) : Nat :=
  (v d).entries.findIdx (fun e => decide (e.inum = 0))

/-- An entry can be written to place `k` of a directory. -/
structure Fs.PlaceFits (fs : Fs) (dn : Dinode) (k : Nat) : Prop where
  size : DIRENT * k + DIRENT ≤ MAXFILE * BSIZE
  block : fs.Mappable dn (DIRENT * k / BSIZE)

/-- Directory `d` can take one more entry. -/
def Fs.EntryFits (fs : Fs) (d : Nat) : Prop :=
  fs.PlaceFits (fs.dinode d) (fs.view.place d)

section Room

variable {fs fs' : Fs} {ip dp : InodeRef} {bn k d x : Nat}

/-- An entry is written whole just where it fits. -/
theorem wlp_writei_told (hwork : fs.Working dp) (de : Bytes) (k : Nat) :
    wlp (writei dp (.kernel de) (DIRENT * k) DIRENT) fs (fun written _ =>
      written = some DIRENT ↔ DIRENT * k ≤ (fs.inode dp).copy.size.toNat ∧
        fs.PlaceFits (fs.inode dp).copy k) := by
  refine wlp_mono (wlp_writei_ends hwork (by decide)) ?_
  rintro written fs' (⟨rfl, _, hrefused⟩ | ⟨t, _, rfl, htakes, hends⟩)
  · exact ⟨nofun, fun ⟨hk, hfits⟩ => (hrefused ⟨hk, hfits.size⟩).elim⟩
  have hroom := hends.room (by decide) (Buffer.kernel_total de)
  have hwhole : t = DIRENT ↔ 0 < t := by
    -- an entry lies within one block
    have hchunk := hends.wrote.chunk
    have hhigh := hends.wrote.high
    simp only [DIRENT, BSIZE] at *
    omega
  rw [Option.some_inj, hwhole, hroom]
  exact ⟨fun hmap => ⟨htakes.1, htakes.2, hmap⟩, fun ⟨_, hfits⟩ => hfits.block⟩

theorem place_empty {v : View} {e : Entry}
    (hsome : (v d).entries[v.place d]? = some e) : e.inum = 0 := by
  obtain ⟨hlt, rfl⟩ := List.getElem?_eq_some_iff.mp hsome
  exact of_decide_eq_true (List.findIdx_getElem (w := hlt))

/-- The place is inside the directory or at its end. -/
theorem place_le {v : View} {dn : Dinode} {disk : Disk}
    (hnode : v d = dn.node disk) (hdir : dn.type = T_DIR) : DIRENT * v.place d ≤ dn.size.toNat := by
  have hle : v.place d ≤ (v d).entries.length := List.findIdx_le_length
  rw [hnode, Dinode.node_entries hdir, List.length_map, List.length_range] at hle
  exact Nat.le_trans (Nat.mul_le_mul_left DIRENT hle) (Nat.mul_div_le _ _)

/-- What fits a place depends on the free map, the inode and its addresses. -/
theorem placeFits_congr {dn : Dinode} (hsb : fs'.sb = fs.sb)
    (hused : ∀ b, b < fs.sb.size → fs'.used b = fs.used b) (haddrs : dn.addrs indirectSlot ≠ 0 →
      fs'.disk (dn.addrs indirectSlot).toNat = fs.disk (dn.addrs indirectSlot).toNat) :
    fs'.PlaceFits dn k ↔ fs.PlaceFits dn k := by
  have hspare : ∀ b, fs'.Spare b ↔ fs.Spare b := by
    intro b
    unfold Fs.Spare
    rw [hsb]
    exact and_congr_right fun hlt => by rw [hused b hlt]
  have hmap : fs'.Mappable dn (DIRENT * k / BSIZE) ↔ fs.Mappable dn (DIRENT * k / BSIZE) := by
    unfold Fs.Mappable
    simp only [hspare, blockAt_congr _ haddrs]
  exact ⟨fun h => ⟨h.size, hmap.mp h.block⟩, fun h => ⟨h.size, hmap.mpr h.block⟩⟩

/-- A write to another inode takes no room away and gives none. -/
theorem entryFits_putInode (hok : fs.Ok) (hkind : (fs.view d).kind ≠ 0) (hx : x < fs.sb.ninodes)
    (hne : d ≠ x) {dn : Dinode} {log : Log} (hview : fs'.view d = fs.view d) (hsb : fs'.sb = fs.sb)
    (hdisk : fs'.disk = (fs.putInode x dn log).disk) : fs'.EntryFits d ↔ fs.EntryFits d := by
  have hd := lt_of_view_kind hkind
  have hlayout := hok.sound.layout
  have hput : ∀ c, c ≠ IBLOCK x fs.sb → fs'.disk c = fs.disk c := by
    intro c hc
    rw [hdisk, Fs.putInode, put_disk, Function.update_of_ne hc]
  have hdinode : fs'.dinode d = fs.dinode d := by
    have hsame := putInode_dinode fs x d dn log
    rw [if_neg hne] at hsame
    rw [← hsame, Fs.dinode, Fs.dinode, hdisk, hsb]
    rfl
  have hplace : fs'.view.place d = fs.view.place d := by
    rw [View.place, View.place, hview]
  unfold Fs.EntryFits
  rw [hdinode, hplace]
  refine placeFits_congr hsb (fun b _ => ?_) fun hind => hput _ fun heq => ?_
  · rw [Fs.used, Fs.used, hsb, hput _ (hlayout.IBLOCK_ne_BBLOCK hx).symm]
  · rw [view_kind hd] at hkind
    have hlow := (hok.sound.indirect_given hd hkind hind).1
    have hhigh := hlayout.IBLOCK_lt_datastart hx
    omega

theorem entryFits_still (hstill : Fs.Still fs fs') : fs'.EntryFits d ↔ fs.EntryFits d := by
  unfold Fs.EntryFits
  rw [hstill.view, Fs.dinode, hstill.disk, hstill.sb]
  refine placeFits_congr hstill.sb (fun b _ => ?_) fun _ => by rw [hstill.disk]
  rw [Fs.used, Fs.used, hstill.disk, hstill.sb]

end Room

end CkptKernel
