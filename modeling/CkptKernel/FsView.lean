/-
What each change of the disk does to the tree of names.
-/
import Mathlib.Data.List.TakeWhile
import CkptKernel.NameCalls

namespace CkptKernel

open ByteMem Code

theorem cname_length (name : Name) : (cname name).length ≤ DIRSIZ :=
  ((List.takeWhile_sublist _).length_le).trans (List.length_take_le _ _)

/-- `strncpy` pads a short name, and `strncmp` stops at the padding. -/
theorem cname_direntName (name : Name) (inum : Nat) :
    cname (direntName (dirent name inum)) = cname name := by
  have hlength := cname_length name
  have hbytes : direntName (dirent name inum) =
      cname name ++ List.replicate (DIRSIZ - (cname name).length) 0 := by
    refine List.ext_getElem ?_ fun i hi hi' => ?_
    · simp only [direntName, List.length_map, List.length_range,
        List.length_append, List.length_replicate]
      omega
    simp only [direntName, List.getElem_map, List.getElem_range, dirent]
    rw [if_neg (by omega), Nat.add_sub_cancel_left]
    by_cases hlt : i < (cname name).length
    · rw [List.getElem_append_left hlt, List.getD_eq_getElem _ _ hlt]
    · rw [List.getElem_append_right (by omega), List.getElem_replicate,
        List.getD_eq_default _ _ (by omega)]
  have htake : (cname name ++ List.replicate (DIRSIZ - (cname name).length)
      (0 : UInt8)).take DIRSIZ = cname name ++ List.replicate (DIRSIZ - (cname name).length) 0 := by
    refine List.take_of_length_le ?_
    rw [List.length_append, List.length_replicate]
    omega
  rw [hbytes]
  conv_lhs => rw [cname, htake]
  have hkept : ∀ c ∈ cname name, decide (c ≠ 0) = true := by
    intro c hc
    have hc := List.mem_takeWhile_imp hc
    exact hc
  rw [List.takeWhile_append_of_pos hkept, List.takeWhile_replicate]
  simp

/-- A new entry reads back as it was written. -/
theorem entryOf_dirent (name : Name) {inum : Nat} (hpos : inum ≠ 0)
    (hlt : inum < 2 ^ 16) : entryOf (dirent name inum) = ⟨cname name, inum⟩ := by
  have hinum : direntInum (dirent name inum) = inum := by
    rw [direntInum_dirent]
    exact Nat.mod_eq_of_lt hlt
  rw [entryOf, hinum, if_neg hpos, cname_direntName]

section View

variable {fs fs' : Fs} {x : Nat}

/-- A file that is as it was is the same node. -/
theorem Fs.SameFile.view (hsb : fs'.sb = fs.sb) (hsame : fs.SameFile fs' x) :
    fs'.view x = fs.view x := by
  rw [Fs.view, Fs.view, hsb]
  split
  · exact Dinode.node_congr (by rw [hsame.1]) (by rw [hsame.1]) fun _ =>
      ⟨by rw [hsame.1], fun o ho => by rw [hsame.1]; exact hsame.2 o ho⟩
  · rfl

/-- A change of one inode. -/
theorem view_update (hsb : fs'.sb = fs.sb) (target : Nat)
    (hothers : ∀ y, y < fs.sb.ninodes → y ≠ target → fs'.dinode y = fs.dinode y)
    (hsame : ∀ y, y < fs.sb.ninodes → y ≠ target → (fs.dinode y).type ≠ 0 → fs.SameFile fs' y) :
    fs'.view = Function.update fs.view target (fs'.view target) := by
  funext y
  by_cases heq : y = target
  · rw [heq, Function.update_self]
  rw [Function.update_of_ne heq]
  by_cases hy : y < fs.sb.ninodes
  · by_cases htype : (fs.dinode y).type = 0
    · rw [view_of_lt (hsb ▸ hy), view_of_lt hy, hothers y hy heq,
        Dinode.node_free htype, Dinode.node_free htype]
    · exact (hsame y hy heq htype).view hsb
  · rw [Fs.view, Fs.view, hsb, if_neg hy, if_neg hy]

end View

/-- `getElem?` of a list with one place written. -/
theorem getElem?_putEntry {k : Nat} (e : Entry) {entries : List Entry} (hk : k ≤ entries.length)
    (j : Nat) : (putEntry k e entries)[j]? = if j = k then some e else entries[j]? := by
  have htake : (entries.take k).length = k := List.length_take_of_le hk
  unfold putEntry
  rcases Nat.lt_trichotomy j k with hlt | rfl | hgt
  · rw [List.getElem?_append_left (by omega), List.getElem?_take_of_lt hlt, if_neg (by omega)]
  · rw [List.getElem?_append_right (by omega), htake, Nat.sub_self, if_pos rfl]
    rfl
  · rw [List.getElem?_append_right (by omega), htake, if_neg (by omega)]
    obtain ⟨m, hm⟩ : ∃ m, j - k = m + 1 := ⟨j - k - 1, by omega⟩
    rw [hm, List.getElem?_cons_succ, List.getElem?_drop]
    congr 1
    omega

section Effects

variable {fs fs' : Fs} {ip : InodeRef}

/-- A change of links. -/
theorem amend_view (hok : fs.Ok) (hloaded : fs.Loaded ip)
    {change : Dinode → Dinode} (hshape : KeepsShape change) (log : Log) :
    (fs.amend ip change log).view = Function.update fs.view (fs.inode ip).inum
      ((fs.view (fs.inode ip).inum).withLinks (change (fs.inode ip).copy).nlink) := by
  have hinum := hloaded.inum hok
  have htype := hloaded.type hok
  have hsync := hloaded.sync hok
  have hdinode : ∀ y, y ≠ (fs.inode ip).inum →
      (fs.amend ip change log).dinode y = fs.dinode y := fun y hne => by
    rw [amend_dinode, if_neg hne]
  rw [@view_update fs (fs.amend ip change log) rfl (fs.inode ip).inum
    (fun y _ hne => hdinode y hne) ?_]
  · congr 1
    have hnew : (fs.amend ip change log).dinode (fs.inode ip).inum = change (fs.inode ip).copy := by
      rw [amend_dinode, if_pos rfl]
    have hbytes := amend_byte hok hloaded hshape log (fs.inode ip).inum
    rw [hnew] at hbytes
    obtain ⟨hkind, hsize, haddrs⟩ := hshape (fs.inode ip).copy
    rw [@view_of_lt (fs.amend ip change log) _ hinum, hnew, hok.view_node hloaded]
    have hcopy : (change (fs.inode ip).copy).node
        (fs.amend ip change log).disk = ({ (fs.inode ip).copy with
          nlink := (change (fs.inode ip).copy).nlink } : Dinode).node
          fs.disk := by
      refine Dinode.node_congr hkind rfl fun hdir => ⟨hsize, fun o ho => ?_⟩
      rw [← hsync] at hbytes
      exact hbytes o hinum htype ho
    rw [hcopy, Dinode.node, Dinode.node, if_neg htype, if_neg htype, Node.withLinks]
    rfl
  · intro y hy hne halloc
    refine ⟨hdinode y hne, fun o ho => ?_⟩
    have hbyte := amend_byte hok hloaded hshape log y o hy halloc ho
    rwa [hdinode y hne] at hbyte

/-- A new inode. -/
theorem ialloc_view (hok : fs.Ok) {inum : Nat} {type : UInt16}
    (htype : type ≠ 0) (hfree : fs.firstFreeInode = some inum) (log : Log) :
    (fs.putInode inum (.fresh type) log).view = Function.update fs.view inum ⟨type, 0, []⟩ := by
  obtain ⟨hlt, _, _⟩ := hok.ialloc type hfree log
  have hdinode : ∀ y, y ≠ inum → (fs.putInode inum (.fresh type) log).dinode y = fs.dinode y :=
    fun y hne => by rw [putInode_dinode, if_neg hne]
  rw [@view_update fs (fs.putInode inum (.fresh type) log) rfl inum
    (fun y _ hne => hdinode y hne) ?_]
  · congr 1
    rw [@view_of_lt (fs.putInode inum (.fresh type) log) _ hlt, putInode_dinode,
      if_pos rfl, Dinode.node, if_neg (by exact htype)]
    simp [Dinode.fresh]
  · intro y hy hne halloc
    refine ⟨hdinode y hne, fun o ho => ?_⟩
    exact hok.sound.byte_congr (fun c hc =>
      putInode_disk hok.sound.layout _ log hlt hc) y o hy halloc ho

/-- An inode that is freed. -/
theorem Fs.Freed.view (hok : fs.Ok) (hfreed : Fs.Freed ip fs fs') :
    fs'.view = Function.update fs.view (fs.inode ip).inum .free := by
  rw [view_update hfreed.sb (fs.inode ip).inum hfreed.dinode
    (fun y hy hne htype => hfreed.same hok y hy hne htype)]
  congr 1
  unfold Fs.view
  split
  · exact Dinode.node_free hfreed.free
  · rfl

/-- One place of a directory is written, or nothing is. -/
theorem Fs.Wrote.view (hok : fs.Ok) (hloaded : fs.Loaded ip)
    (hdir : (fs.inode ip).copy.type = T_DIR) {buf : Buffer} {k t : Nat} (htotal : buf.Total)
    (hwrote : Fs.Wrote ip buf (DIRENT * k) DIRENT t fs fs') : (t = 0 ∧ fs'.view = fs.view) ∨
      (t = DIRENT ∧ k ≤ (fs.view (fs.inode ip).inum).entries.length ∧
        fs'.view = Function.update fs.view (fs.inode ip).inum
          ((fs.view (fs.inode ip).inum).put k (entryOf buf.byte)
            (fs.view (fs.inode ip).inum).links)) := by
  have hinum := hloaded.inum hok
  obtain ⟨size, addrs, hself⟩ := hwrote.self
  have htype : (fs'.inode ip).copy.type = (fs.inode ip).copy.type := by
    rw [hself]
  have hlinks : (fs'.inode ip).copy.nlink = (fs.inode ip).copy.nlink := by
    rw [hself]
  have hnode : fs'.view (fs.inode ip).inum = (fs'.inode ip).copy.node fs'.disk := by
    rw [view_of_lt (hwrote.sb ▸ hinum), hwrote.sync]
  have hview : fs'.view = Function.update fs.view (fs.inode ip).inum
      ((fs'.inode ip).copy.node fs'.disk) := by
    rw [← hnode]
    exact view_update hwrote.sb _ hwrote.dinode fun y hy hne halloc =>
      ⟨hwrote.dinode y hy hne, fun o ho =>
        hwrote.elsewhere y o hy halloc hne ho⟩
  have hsize := hwrote.size
  have hstart := hwrote.start
  have hchunk : t = 0 ∨ t = DIRENT := by
    rcases hwrote.chunk with hzero | hwhole
    · exact Or.inl hzero
    · have hle := hwrote.high
      simp only [DIRENT, BSIZE] at *
      omega
  rw [hview]
  rcases hchunk with rfl | rfl
  · refine Or.inl ⟨rfl, ?_⟩
    have hsame : (fs'.inode ip).copy.node fs'.disk = fs.view (fs.inode ip).inum := by
      rw [hok.view_node hloaded]
      refine Dinode.node_congr htype hlinks fun _ => ⟨?_, fun o ho => ?_⟩
      · exact UInt32.toNat_inj.mp (by omega)
      · refine hwrote.same o ho ?_
        rcases Nat.lt_or_ge o (DIRENT * k) with hlt | hge
        · exact Or.inl hlt
        · exact Or.inr (Or.inr ⟨htotal, by omega⟩)
    rw [hsame, Function.update_eq_self]
  · have hkind : (fs'.inode ip).copy.type = T_DIR := htype.trans hdir
    have hold := @Dinode.node_entries _ fs.disk hdir
    have hnew := @Dinode.node_entries _ fs'.disk hkind
    have hne : (fs.inode ip).copy.type ≠ 0 := by rw [hdir]; decide
    have hne' : (fs'.inode ip).copy.type ≠ 0 := by rw [hkind]; decide
    have hlength : ((fs.inode ip).copy.node fs.disk).entries.length =
        (fs.inode ip).copy.size.toNat / DIRENT := by
      rw [hold, List.length_map, List.length_range]
    have hk : k ≤ ((fs.inode ip).copy.node fs.disk).entries.length := by
      rw [hlength]
      simp only [DIRENT] at *
      omega
    rw [hok.view_node hloaded]
    refine Or.inr ⟨rfl, hk, ?_⟩
    congr 1
    have hentries : ((fs'.inode ip).copy.node fs'.disk).entries = putEntry k (entryOf buf.byte)
          ((fs.inode ip).copy.node fs.disk).entries := by
      refine List.ext_getElem? fun j => ?_
      rw [getElem?_putEntry _ hk, hold, hnew, List.getElem?_map, List.getElem?_map]
      split
      next heq =>
        subst heq
        have hlt : j < (fs'.inode ip).copy.size.toNat / DIRENT := by
          simp only [DIRENT] at *
          omega
        rw [List.getElem?_range hlt, Option.map_some]
        refine congrArg some (entryOf_congr fun i hi => ?_)
        rw [hwrote.written (DIRENT * j + i) (by omega) (by omega), Nat.add_sub_cancel_left]
      next hjk =>
        by_cases hlt : j < (fs.inode ip).copy.size.toNat / DIRENT
        · have hlt' : j < (fs'.inode ip).copy.size.toNat / DIRENT := by
            simp only [DIRENT] at *
            omega
          rw [List.getElem?_range hlt, List.getElem?_range hlt', Option.map_some, Option.map_some]
          refine congrArg some (entryOf_congr fun i hi => hwrote.same _ ?_ ?_)
          · simp only [DIRENT] at *
            omega
          · simp only [DIRENT] at *
            omega
        · have hout : ¬ j < (fs'.inode ip).copy.size.toNat / DIRENT := by
            simp only [DIRENT] at *
            omega
          rw [List.getElem?_eq_none (by simpa using hout),
            List.getElem?_eq_none (by simpa using hlt)]
          rfl
    have hfields : (fs'.inode ip).copy.node fs'.disk = ⟨((fs'.inode ip).copy.node fs'.disk).kind,
          ((fs'.inode ip).copy.node fs'.disk).links,
          ((fs'.inode ip).copy.node fs'.disk).entries⟩ := rfl
    rw [hfields, hentries, Dinode.node_kind, Dinode.node_links hne', htype,
      hlinks, Node.put, Dinode.node_kind, Dinode.node_links hne]

end Effects

/-- A file has the bytes it had. -/
structure Fs.SameBytes (fs fs' : Fs) (x : Nat) : Prop where
  size : (fs'.dinode x).size = (fs.dinode x).size
  byte : ∀ o, o < (fs.dinode x).size.toNat →
    (fs'.dinode x).byte fs'.disk o = (fs.dinode x).byte fs.disk o

/-- Of the inodes allocated in `v₀`, those that still are have kept their type
and, unless they are directories, their bytes. -/
def Fs.Spares (v₀ : View) (fs fs' : Fs) : Prop :=
  ∀ x, (v₀ x).kind ≠ 0 → (fs'.view x).kind ≠ 0 → (fs'.view x).kind = (fs.view x).kind ∧
      ((fs.view x).kind ≠ T_DIR → fs.SameBytes fs' x)

section Bytes

variable {v₀ : View} {fs fs' fs'' : Fs} {ip : InodeRef} {x : Nat}

theorem Fs.SameBytes.refl (fs : Fs) (x : Nat) : fs.SameBytes fs x :=
  ⟨rfl, fun _ _ => rfl⟩

theorem Fs.SameBytes.trans (hfirst : fs.SameBytes fs' x)
    (hnext : fs'.SameBytes fs'' x) : fs.SameBytes fs'' x := by
  refine ⟨hnext.size.trans hfirst.size, fun o ho => ?_⟩
  have ho' : o < (fs'.dinode x).size.toNat := by rwa [hfirst.size]
  rw [hnext.byte o ho', hfirst.byte o ho]

namespace Fs.Spares

theorem refl (v₀ : View) (fs : Fs) : Fs.Spares v₀ fs fs :=
  fun x _ _ => ⟨rfl, fun _ => .refl fs x⟩

theorem trans (hfirst : Fs.Spares v₀ fs fs') (hnext : Fs.Spares v₀ fs' fs'') :
    Fs.Spares v₀ fs fs'' := by
  intro x hold hnew
  obtain ⟨hkind', hbytes'⟩ := hnext x hold hnew
  obtain ⟨hkind, hbytes⟩ := hfirst x hold (hkind' ▸ hnew)
  refine ⟨hkind'.trans hkind, fun hfile => ?_⟩
  exact (hbytes hfile).trans (hbytes' (hkind.symm ▸ hfile))

/-- A step that leaves the disk alone. -/
theorem of_disk (hdisk : fs'.disk = fs.disk) (hsb : fs'.sb = fs.sb) : Fs.Spares v₀ fs fs' := by
  have hdinode : ∀ x, fs'.dinode x = fs.dinode x := fun x => by
    rw [Fs.dinode, Fs.dinode, hdisk, hsb]
  intro x _ _
  refine ⟨by rw [view_of_disk hdisk hsb], fun _ => ⟨by rw [hdinode], ?_⟩⟩
  intro o _
  rw [hdinode, hdisk]

/-- A step that changes one inode. -/
theorem of_others (hsb : fs'.sb = fs.sb) (target : Nat)
    (hothers : ∀ y, y < fs.sb.ninodes → y ≠ target → fs'.dinode y = fs.dinode y)
    (hsame : ∀ y, y < fs.sb.ninodes → y ≠ target → (fs.dinode y).type ≠ 0 → fs.SameFile fs' y)
    (hself : (v₀ target).kind ≠ 0 → (fs'.view target).kind ≠ 0 →
      (fs'.view target).kind = (fs.view target).kind ∧
        ((fs.view target).kind ≠ T_DIR → fs.SameBytes fs' target)) : Fs.Spares v₀ fs fs' := by
  intro y hold hnew
  by_cases heq : y = target
  · subst heq
    exact hself hold hnew
  have hview := view_update hsb target hothers hsame
  rw [hview, Function.update_of_ne heq] at hnew ⊢
  have hy := lt_of_view_kind hnew
  rw [view_kind hy] at hnew
  obtain ⟨hdinode, hbytes⟩ := hsame y hy heq hnew
  refine ⟨rfl, fun _ => ⟨by rw [hdinode], fun o ho => ?_⟩⟩
  rw [hdinode]
  exact hbytes o ho

theorem amend (hok : fs.Ok) (hloaded : fs.Loaded ip) {change : Dinode → Dinode}
    (hshape : KeepsShape change) (log : Log) : Fs.Spares v₀ fs (fs.amend ip change log) := by
  intro y _ hnew
  have hy' := lt_of_view_kind hnew
  have hy : y < fs.sb.ninodes := hy'
  obtain ⟨htype, hsize, _⟩ := @amend_shape fs ip change log hok hloaded hshape y
  rw [view_kind hy', htype] at hnew
  refine ⟨by rw [view_kind hy', view_kind hy, htype], fun _ => ⟨hsize, ?_⟩⟩
  exact fun o ho => amend_byte hok hloaded hshape log y o hy hnew ho

theorem ialloc (hok : fs.Ok) {type : UInt16} (hfree : fs.firstFreeInode = some x)
    (hold : (v₀ x).kind = 0) (log : Log) : Fs.Spares v₀ fs (fs.putInode x (.fresh type) log) := by
  obtain ⟨hlt, _, _⟩ := hok.ialloc type hfree log
  have hdinode : ∀ y, y ≠ x → (fs.putInode x (.fresh type) log).dinode y = fs.dinode y :=
    fun y hne => by rw [putInode_dinode, if_neg hne]
  refine of_others rfl x (fun y _ hne => hdinode y hne) ?_ fun hne => (hne hold).elim
  intro y hy hne halloc
  exact ⟨hdinode y hne, fun o ho => hok.sound.byte_congr (fun c hc =>
    putInode_disk hok.sound.layout _ log hlt hc) y o hy halloc ho⟩

theorem freed (hok : fs.Ok) (hfreed : Fs.Freed ip fs fs') : Fs.Spares v₀ fs fs' := by
  refine of_others hfreed.sb (fs.inode ip).inum hfreed.dinode
    (fun y hy hne htype => hfreed.same hok y hy hne htype) fun _ hnew => ?_
  have hx := lt_of_view_kind hnew
  rw [view_kind hx] at hnew
  exact (hnew hfreed.free).elim

/-- A write to a directory. -/
theorem wrote {buf : Buffer} {off n t : Nat} (hok : fs.Ok)
    (hloaded : fs.Loaded ip) (hdir : (fs.inode ip).copy.type = T_DIR)
    (hwrote : Fs.Wrote ip buf off n t fs fs') : Fs.Spares v₀ fs fs' := by
  have hinum := hloaded.inum hok
  refine of_others hwrote.sb (fs.inode ip).inum hwrote.dinode ?_ fun _ _ => ?_
  · exact fun y hy hne halloc => ⟨hwrote.dinode y hy hne, fun o ho =>
      hwrote.elsewhere y o hy halloc hne ho⟩
  have hkind : (fs.view (fs.inode ip).inum).kind = T_DIR := by
    rw [hok.view_node hloaded, Dinode.node_kind, hdir]
  obtain ⟨size, addrs, hself⟩ := hwrote.self
  refine ⟨?_, fun hfile => (hfile hkind).elim⟩
  rw [hkind, view_kind (hwrote.sb ▸ hinum), hwrote.sync, hself]
  exact hdir

end Fs.Spares

end Bytes

end CkptKernel
