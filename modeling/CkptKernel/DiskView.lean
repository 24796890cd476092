/-
The tree of names that a disk holds.
-/
import CkptKernel.InodeRelease
import CkptKernel.NameTree

namespace CkptKernel

open ByteMem Code

/-- The entry that the bytes of a `struct dirent` stand for. -/
def entryOf (de : Bytes) : Entry :=
  if direntInum de = 0 then .empty else ⟨cname (direntName de), direntInum de⟩

theorem entryOf_congr {de de' : Bytes} (hsame : ∀ i, i < DIRENT → de i = de' i) :
    entryOf de = entryOf de' := by
  have hinum : direntInum de = direntInum de' := by
    apply getLE_congr
    intro addr _ haddr
    exact hsame addr (by simp only [DIRENT]; omega)
  have hname : direntName de = direntName de' := by
    refine List.map_congr_left fun i hi => hsame (2 + i) ?_
    have hlt := List.mem_range.mp hi
    simp only [DIRENT, DIRSIZ] at *
    omega
  rw [entryOf, entryOf, hinum, hname]

theorem entryOf_inum (de : Bytes) : (entryOf de).inum = direntInum de := by
  unfold entryOf
  split
  next hzero =>
    exact hzero.symm
  · rfl

namespace Dinode

def entryAt (dn : Dinode) (disk : Disk) (k : Nat) : Entry :=
  entryOf (fun i => dn.byte disk (DIRENT * k + i))

def node (dn : Dinode) (disk : Disk) : Node :=
  if dn.type = 0 then .free
  else ⟨dn.type, dn.nlink, if dn.type = T_DIR then
    (List.range (dn.size.toNat / DIRENT)).map (dn.entryAt disk) else []⟩

variable {dn : Dinode} {disk : Disk}

@[simp] theorem node_kind : (dn.node disk).kind = dn.type := by
  unfold node
  split
  next hzero =>
    exact hzero.symm
  · rfl

theorem node_free (htype : dn.type = 0) : dn.node disk = .free := if_pos htype

theorem node_links (htype : dn.type ≠ 0) : (dn.node disk).links = dn.nlink := by
  rw [node, if_neg htype]

theorem node_entries (htype : dn.type = T_DIR) : (dn.node disk).entries =
    (List.range (dn.size.toNat / DIRENT)).map (dn.entryAt disk) := by
  have hne : dn.type ≠ 0 := by rw [htype]; decide
  rw [node, if_neg hne, if_pos htype]

/-- Type, links and contents make the node. -/
theorem node_congr {dn' : Dinode} {disk' : Disk} (htype : dn'.type = dn.type)
    (hlinks : dn'.nlink = dn.nlink)
    (hdir : dn.type = T_DIR → dn'.size = dn.size ∧ ∀ o, o < dn.size.toNat →
      dn'.byte disk' o = dn.byte disk o) : dn'.node disk' = dn.node disk := by
  rw [node, node, htype, hlinks]
  split
  · rfl
  split
  next hkind =>
    obtain ⟨hsize, hbytes⟩ := hdir hkind
    rw [hsize]
    congr 1
    refine List.map_congr_left fun k hk => entryOf_congr fun i hi => ?_
    apply hbytes
    have hlt := List.mem_range.mp hk
    have hle := Nat.div_mul_le_self dn.size.toNat DIRENT
    have hmul : (k + 1) * DIRENT ≤ dn.size.toNat / DIRENT * DIRENT :=
      Nat.mul_le_mul_right DIRENT hlt
    rw [Nat.mul_comm DIRENT k]
    rw [Nat.succ_mul] at hmul
    omega
  · rfl

/-- A place of a directory. -/
theorem node_getElem? (hdir : dn.type = T_DIR) (k : Nat) :
    (dn.node disk).entries[k]? = if DIRENT * k + DIRENT ≤ dn.size.toNat then
      some (dn.entryAt disk k) else none := by
  rw [node_entries hdir, List.getElem?_map]
  split
  · rw [List.getElem?_range (by simp only [DIRENT] at *; omega)]
    rfl
  · rw [List.getElem?_eq_none]
    · rfl
    · simp only [List.length_range, DIRENT] at *
      omega

/-- The entries from place `k` on. -/
theorem node_drop (hdir : dn.type = T_DIR) {k : Nat}
    (hk : DIRENT * k + DIRENT ≤ dn.size.toNat) : (dn.node disk).entries.drop k =
      dn.entryAt disk k :: (dn.node disk).entries.drop (k + 1) := by
  have hget := @node_getElem? dn disk hdir k
  rw [if_pos hk] at hget
  obtain ⟨hlt, heq⟩ := List.getElem?_eq_some_iff.mp hget
  rw [List.drop_eq_getElem_cons hlt, heq]

theorem node_end (hdir : dn.type = T_DIR) {k : Nat}
    (hk : dn.size.toNat ≤ DIRENT * k) : (dn.node disk).entries.drop k = [] := by
  refine List.drop_eq_nil_of_le ?_
  rw [node_entries hdir, List.length_map, List.length_range]
  simp only [DIRENT] at *
  omega

end Dinode

/-- The tree of names on the disk. -/
def Fs.view (fs : Fs) : View := fun x =>
  if x < fs.sb.ninodes then (fs.dinode x).node fs.disk else .free

section View

variable {fs fs' : Fs} {x : Nat}

theorem view_of_lt (hx : x < fs.sb.ninodes) : fs.view x = (fs.dinode x).node fs.disk := if_pos hx

theorem view_kind (hx : x < fs.sb.ninodes) : (fs.view x).kind = (fs.dinode x).type := by
  rw [view_of_lt hx, Dinode.node_kind]

/-- Only inodes of the disk are allocated. -/
theorem lt_of_view_kind (hkind : (fs.view x).kind ≠ 0) : x < fs.sb.ninodes := by
  by_contra hout
  rw [Fs.view, if_neg hout] at hkind
  exact hkind rfl

theorem view_free (hkind : (fs.view x).kind = 0) : fs.view x = .free := by
  by_cases hx : x < fs.sb.ninodes
  · rw [view_kind hx] at hkind
    rw [view_of_lt hx, Dinode.node_free hkind]
  · exact if_neg hx

/-- The tree is a matter of the disk. -/
theorem view_of_disk (hdisk : fs'.disk = fs.disk) (hsb : fs'.sb = fs.sb) : fs'.view = fs.view := by
  funext y
  rw [Fs.view, Fs.view, Fs.dinode, Fs.dinode, hdisk, hsb]

variable {ip : InodeRef}

/-- An entry for an inode whose contents are in memory. -/
structure Fs.Loaded (fs : Fs) (ip : InodeRef) : Prop where
  ref : 0 < (fs.inode ip).ref
  valid : (fs.inode ip).valid = true

section

variable (hloaded : fs.Loaded ip) (hok : fs.Ok)
include hloaded hok

theorem Fs.Loaded.inum : (fs.inode ip).inum < fs.sb.ninodes :=
  hok.inum ip hloaded.ref hloaded.valid

theorem Fs.Loaded.type : (fs.inode ip).copy.type ≠ 0 :=
  hok.type ip hloaded.ref hloaded.valid

theorem Fs.Loaded.sync : (fs.inode ip).copy = fs.dinode (fs.inode ip).inum :=
  hok.sync ip hloaded.ref hloaded.valid

end

theorem Fs.Ok.full (hok : fs.Ok) (hloaded : fs.Loaded ip) : (fs.inode ip).copy.Full fs.disk := by
  have hinum := hloaded.inum hok
  have htype := hloaded.type hok
  rw [hloaded.sync hok] at htype ⊢
  exact hok.sound.full _ hinum htype

/-- The node of an inode in memory. -/
theorem Fs.Ok.view_node (hok : fs.Ok) (hloaded : fs.Loaded ip) :
    fs.view (fs.inode ip).inum = (fs.inode ip).copy.node fs.disk := by
  rw [view_of_lt (hloaded.inum hok), hloaded.sync hok]

variable {dp : InodeRef}

/-- Entries name inodes of the disk. -/
theorem Fs.Ok.entry_lt (hok : fs.Ok) (hloaded : fs.Loaded ip)
    (hdir : (fs.inode ip).copy.type = T_DIR) {e : Entry}
    (hmem : e ∈ (fs.view (fs.inode ip).inum).entries) : e.inum < fs.sb.ninodes := by
  have hsync := hloaded.sync hok
  rw [hok.view_node hloaded, Dinode.node_entries hdir] at hmem
  obtain ⟨k, hk, rfl⟩ := List.mem_map.mp hmem
  have hlt := List.mem_range.mp hk
  rw [Dinode.entryAt, entryOf_inum]
  rw [hsync] at hdir hlt ⊢
  refine hok.dirs _ (hloaded.inum hok) hdir k ?_
  simp only [DIRENT] at *
  omega

end View

end CkptKernel
