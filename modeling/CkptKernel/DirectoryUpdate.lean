/-
Calls that change the disk: writing to an inode, linking a name, allocating an
inode.  An inode that is held and allocated keeps its number and its type
through all of them.
-/
import CkptKernel.Lookup

namespace CkptKernel

open ByteMem Code Ownership

/-- What every call may do to a file system in which `h` counts references
that others hold: held inodes stay what they are. -/
structure Fs.Evolves (h d : InodeRef → Int) (fs fs' : Fs) : Prop
    extends Fs.Follows h d fs fs' where
  type : ∀ e, 0 < h e → (fs.inode e).inum < fs.sb.ninodes → (fs.dinode (fs.inode e).inum).type ≠ 0 →
    (fs'.dinode (fs.inode e).inum).type = (fs.dinode (fs.inode e).inum).type

variable {h : InodeRef → Int} {fs fs' : Fs}

theorem Fs.Looks.evolves {d : InodeRef → Int}
    (hlooks : Fs.Looks h d fs fs') : Fs.Evolves h d fs fs' :=
  ⟨hlooks.toFollows, fun _ he hinum htype => by
    rw [(hlooks.kept _ hinum htype (Or.inr ⟨_, he, rfl⟩)).1]⟩

namespace Fs.Evolves

variable {h h' d d' : InodeRef → Int} {fs fs' fs'' : Fs}

theorem refl (h : InodeRef → Int) (hok : fs.Ok) : Fs.Evolves h 0 fs fs :=
  (Fs.Looks.refl h hok).evolves

theorem trans (hfirst : Fs.Evolves h d fs fs')
    (hnext : Fs.Evolves h d' fs' fs'') : Fs.Evolves h (d + d') fs fs'' := by
  refine ⟨hfirst.toFollows.trans hnext.toFollows, ?_⟩
  intro e he hinum htype
  have hsame := hfirst.type e he hinum htype
  have hnum := hfirst.inum e he
  have hlast := hnext.type e he (by rw [hnum, hfirst.sb]; exact hinum) (by rwa [hnum, hsame])
  rwa [hnum, hsame] at hlast

theorem trans_zero (hfirst : Fs.Evolves h d fs fs')
    (hnext : Fs.Evolves h 0 fs' fs'') : Fs.Evolves h d fs fs'' := by
  have htrans := hfirst.trans hnext
  rwa [add_zero] at htrans

theorem zero_trans (hfirst : Fs.Evolves h 0 fs fs')
    (hnext : Fs.Evolves h d fs' fs'') : Fs.Evolves h d fs fs'' := by
  have htrans := hfirst.trans hnext
  rwa [zero_add] at htrans

theorem mono (hev : Fs.Evolves h d fs fs') (hle : ∀ e, h' e ≤ h e) : Fs.Evolves h' d fs fs' := by
  have hpos : ∀ e, 0 < h' e → 0 < h e := fun e he => Int.lt_of_lt_of_le he (hle e)
  exact ⟨hev.toFollows.mono hpos, fun e he => hev.type e (hpos e he)⟩

/-- An inode that is loaded and held stays loaded. -/
theorem loaded (hev : Fs.Evolves h d fs fs') {ip : InodeRef} (hip : 0 < h ip)
    (hheld : fs'.Held h) (hloaded : fs.Loaded ip) : fs'.Loaded ip :=
  ⟨Int.lt_of_lt_of_le hip (hheld ip), hev.valid ip hip hloaded.valid⟩

end Fs.Evolves

/-- A change of one inode, in memory and on disk, that keeps its type. -/
theorem Fs.Ok.evolves_change {fs fs' : Fs} (hok' : fs'.Ok) {target : Nat} (hsb : fs'.sb = fs.sb)
    (hinode : ∀ e, (fs'.inode e).ref = (fs.inode e).ref ∧
      (fs'.inode e).inum = (fs.inode e).inum ∧ (fs'.inode e).valid = (fs.inode e).valid)
    (hdinode : ∀ inum, inum < fs.sb.ninodes → inum ≠ target → fs'.dinode inum = fs.dinode inum)
    (htype : (fs.dinode target).type ≠ 0 → (fs'.dinode target).type = (fs.dinode target).type)
    (htidy : fs.Tidy → fs'.Tidy) (h : InodeRef → Int) : Fs.Evolves h 0 fs fs' := by
  refine ⟨⟨hok', hsb, ?_, fun e _ => (hinode e).2.1, ?_, htidy⟩, ?_⟩
  · intro e
    rw [(hinode e).1, Pi.zero_apply, Int.add_zero]
  · intro e _ hvalid
    rw [(hinode e).2.2, hvalid]
  · intro e _ hinum hne
    by_cases heq : (fs.inode e).inum = target
    · rw [heq] at hne ⊢
      exact htype hne
    · rw [hdinode _ hinum heq]

/-- The bytes to be written at `off` are a whole entry that names one of the
inodes of the disk. -/
def Buffer.IsEntry (buf : Buffer) (ninodes off n : Nat) : Prop :=
  n = DIRENT ∧ (∃ k, off = DIRENT * k) ∧ buf.Total ∧ direntInum buf.byte < ninodes

def Fs.WriteOk (fs : Fs) (ip : InodeRef) (buf : Buffer) (off n : Nat) : Prop :=
  (fs.inode ip).copy.type = T_DIR → buf.IsEntry fs.sb.ninodes off n

variable {ip : InodeRef} {buf : Buffer} {off n t : Nat}

/-- What `writei` does to the inode table. -/
theorem Fs.Wrote.entries (hwrote : Fs.Wrote ip buf off n t fs fs') (e : InodeRef) :
    (fs'.inode e).ref = (fs.inode e).ref ∧ (fs'.inode e).inum = (fs.inode e).inum ∧
      (fs'.inode e).valid = (fs.inode e).valid ∧ (fs'.inode e).locked = (fs.inode e).locked := by
  by_cases heq : e = ip
  · obtain ⟨size, addrs, hself⟩ := hwrote.self
    rw [heq, hself]
    exact ⟨rfl, rfl, rfl, rfl⟩
  · rw [hwrote.others e heq]
    exact ⟨rfl, rfl, rfl, rfl⟩

/-- A write of one directory entry leaves a directory well formed. -/
theorem Fs.Wrote.entriesOk (hwrote : Fs.Wrote ip buf off DIRENT t fs fs')
    (hold : fs.EntriesOk (fs.inode ip).inum)
    (hsync : (fs.inode ip).copy = fs.dinode (fs.inode ip).inum) {k : Nat}
    (hoff : off = DIRENT * k) (htotal : buf.Total) (hinum : direntInum buf.byte < fs.sb.ninodes) :
    fs'.EntriesOk (fs.inode ip).inum := by
  have hchunk : t = 0 ∨ t = DIRENT := by
    rcases hwrote.chunk with hzero | hwhole
    · exact Or.inl hzero
    · have hle := hwrote.high
      simp only [DIRENT, BSIZE] at *
      omega
  have hsize := hwrote.size
  have hstart := hwrote.start
  intro j hj
  rw [hwrote.sync] at hj ⊢
  rw [hwrote.sb]
  by_cases hself : j = k ∧ t = DIRENT
  · -- the entry just written
    obtain ⟨rfl, rfl⟩ := hself
    have hread : direntInum (fun i =>
        (fs'.inode ip).copy.byte fs'.disk (DIRENT * j + i)) = direntInum buf.byte := by
      apply getLE_congr
      intro addr _ haddr
      rw [← hoff, hwrote.written (off + addr) (by omega)
        (by simp only [DIRENT]; omega), Nat.add_sub_cancel_left]
    rw [hread]
    exact hinum
  · -- an entry that was there before
    have hbelow : DIRENT * j + DIRENT ≤ (fs.inode ip).copy.size.toNat := by
      simp only [DIRENT] at *
      omega
    have hread : direntInum (fun i =>
        (fs'.inode ip).copy.byte fs'.disk (DIRENT * j + i)) = direntInum (fun i =>
          (fs.inode ip).copy.byte fs.disk (DIRENT * j + i)) := by
      apply getLE_congr
      intro addr _ haddr
      apply hwrote.same
      · simp only [DIRENT] at *
        omega
      simp only [DIRENT] at *
      rcases hchunk with hzero | hwhole
      · rcases Nat.lt_or_ge (16 * j + addr) off with hlt | hge
        · exact Or.inl hlt
        · exact Or.inr (Or.inr ⟨htotal, by omega⟩)
      · have hne : j ≠ k := fun heq => hself ⟨heq, hwhole⟩
        omega
    rw [hread]
    rw [hsync] at hbelow ⊢
    exact hold j hbelow

section

variable (hok : fs.Ok) (hloaded : fs.Loaded ip) (hwrite : fs.WriteOk ip buf off n)
  (hwrote : Fs.Wrote ip buf off n t fs fs')
include hok hloaded hwrite hwrote

theorem Fs.Wrote.ok : fs'.Ok := by
  have hsync := hloaded.sync hok
  have hinum := hloaded.inum hok
  have htype := hloaded.type hok
  obtain ⟨size, addrs, hself⟩ := hwrote.self
  have htype' : (fs'.inode ip).copy.type = (fs.inode ip).copy.type := by
    rw [hself]
  refine hok.change (fs.inode ip).inum hwrote.sb hwrote.sound ?_ ?_ ?_ ?_ hwrote.dinode ?_ ?_
  · intro e
    rw [(hwrote.entries e).1]
    exact hok.ref e
  · intro e he
    rw [(hwrote.entries e).1] at he
    exact ⟨he, (hwrote.entries e).2.1⟩
  · intro e he hne hv
    have heq : e ≠ ip := fun heq => hne (by rw [heq])
    rw [hwrote.others e heq] at hv ⊢
    exact ⟨hv, rfl⟩
  · intro e he heq hv
    rw [(hwrote.entries e).1] at he
    have hip := hok.unique e ip he hloaded.ref heq
    subst hip
    exact ⟨hinum, hwrote.sync.symm, htype' ▸ htype⟩
  · intro inum hlt hne halloc
    exact ⟨hwrote.dinode inum hlt hne, fun o ho => hwrote.elsewhere inum o hlt halloc hne ho⟩
  · intro hdir
    rw [hwrote.sync, htype'] at hdir
    obtain ⟨rfl, ⟨k, hoff⟩, htotal, hentry⟩ := hwrite hdir
    refine hwrote.entriesOk (hok.dirs _ hinum ?_) hsync hoff htotal hentry
    rw [← hsync]
    exact hdir

theorem Fs.Wrote.evolves (h : InodeRef → Int) : Fs.Evolves h 0 fs fs' := by
  refine (hwrote.ok hok hloaded hwrite).evolves_change hwrote.sb ?_
    hwrote.dinode ?_ (fun htidy => hwrote.tidy ?_) h
  · intro e
    have hentry := hwrote.entries e
    exact ⟨hentry.1, hentry.2.1, hentry.2.2.1⟩
  · intro _
    obtain ⟨size, addrs, hself⟩ := hwrote.self
    rw [hwrote.sync, hself, ← hloaded.sync hok]
  · rw [hok.seen hloaded.ref hloaded.valid]
    exact htidy

end

theorem Fs.Wrote.locks (hwrote : Fs.Wrote ip buf off n t fs fs') : fs'.locks = fs.locks :=
  funext fun e => (hwrote.entries e).2.2.2

/-- Inodes that differ in nothing but links and device numbers own the same
blocks. -/
theorem Fs.Sound.reshape {dn dn' : Nat → Dinode}
    (hsound : fs.Sound dn) (hshape : ∀ inum, (dn' inum).type = (dn inum).type ∧
      (dn' inum).size = (dn inum).size ∧ (dn' inum).addrs = (dn inum).addrs) : fs.Sound dn' := by
  have hblock : ∀ inum slot, (dn' inum).blockAt fs.disk slot = (dn inum).blockAt fs.disk slot := by
    intro inum slot
    cases slot <;> simp only [Dinode.blockAt, (hshape inum).2.2]
  refine ⟨hsound.layout, hsound.marked, ?_, ?_⟩
  · refine hsound.owned.mono ?_ (fun _ _ _ hgiven => hgiven)
    rintro ⟨inum, slot⟩ ⟨hinum, htype, hvalid⟩ _
    rw [(hshape inum).1] at htype
    exact ⟨⟨hinum, htype, hvalid⟩, hblock inum slot⟩
  · intro inum hinum htype
    rw [(hshape inum).1] at htype
    obtain ⟨hmax, hmapped⟩ := hsound.full inum hinum htype
    refine ⟨(hshape inum).2.1 ▸ hmax, fun bn hbn => ?_⟩
    rw [(hshape inum).2.1] at hbn
    rw [hblock]
    exact hmapped bn hbn

/-- A change of links and device numbers, in memory and on disk. -/
def Fs.amend (fs : Fs) (ip : InodeRef) (change : Dinode → Dinode) (log : Log) : Fs :=
  (fs.withCopy ip change).putInode (fs.inode ip).inum
    (change (fs.inode ip).copy) log

variable {change : Dinode → Dinode}

theorem wlp_iupdate_withCopy {post : Unit → Fs → Prop}
    (hpost : ∀ log, post () (fs.amend ip change log)) :
    wlp (iupdate ip) (fs.withCopy ip change) post := by
  unfold iupdate writeDinode
  simp only [wlp_bind, wlp_read, wlp_logWrite]
  intro log _
  have hentry : (fs.withCopy ip change).inode ip = { fs.inode ip with
      copy := change (fs.inode ip).copy } := by
    rw [Fs.withCopy, withInode_self]
  rw [hentry]
  exact hpost log

theorem ends_iupdate_withCopy {post : Unit → Fs → Prop}
    (hpost : ∀ log, post () (fs.amend ip change log)) :
    ends (iupdate ip) (fs.withCopy ip change) post Lawful :=
  Quiet.ends (quiet_iupdate ip) (wlp_iupdate_withCopy hpost)

def KeepsShape (change : Dinode → Dinode) : Prop :=
  ∀ dn, (change dn).type = dn.type ∧ (change dn).size = dn.size ∧ (change dn).addrs = dn.addrs

section Amend

variable {fs : Fs} {ip : InodeRef} {change : Dinode → Dinode} (log : Log)

theorem amend_dinode (inum : Nat) : (fs.amend ip change log).dinode inum =
    if inum = (fs.inode ip).inum then change (fs.inode ip).copy else fs.dinode inum := by
  rw [Fs.amend, putInode_dinode]
  rfl

theorem amend_entries (e : InodeRef) : ((fs.amend ip change log).inode e).ref = (fs.inode e).ref ∧
      ((fs.amend ip change log).inode e).inum = (fs.inode e).inum ∧
      ((fs.amend ip change log).inode e).valid = (fs.inode e).valid ∧
      ((fs.amend ip change log).inode e).locked = (fs.inode e).locked := by
  rw [Fs.amend, putInode_inode, Fs.withCopy]
  by_cases heq : e = ip
  · rw [heq, withInode_self]
    exact ⟨rfl, rfl, rfl, rfl⟩
  · rw [withInode_of_ne _ _ _ heq]
    exact ⟨rfl, rfl, rfl, rfl⟩

theorem amend_locks : (fs.amend ip change log).locks = fs.locks :=
  funext fun e => (amend_entries log e).2.2.2

theorem amend_shape (hok : fs.Ok) (hloaded : fs.Loaded ip) (hshape : KeepsShape change)
    (inum : Nat) : ((fs.amend ip change log).dinode inum).type = (fs.dinode inum).type ∧
      ((fs.amend ip change log).dinode inum).size = (fs.dinode inum).size ∧
      ((fs.amend ip change log).dinode inum).addrs = (fs.dinode inum).addrs := by
  rw [amend_dinode]
  split
  next heq =>
    rw [hloaded.sync hok, heq]
    exact hshape _
  · exact ⟨rfl, rfl, rfl⟩

end Amend

theorem byte_of_addrs {dn dn' : Dinode} (haddrs : dn'.addrs = dn.addrs)
    (disk : Disk) (o : Nat) : dn'.byte disk o = dn.byte disk o := by
  have hblock : ∀ slot, dn'.blockAt disk slot = dn.blockAt disk slot := by
    intro slot
    cases slot <;> simp only [Dinode.blockAt, haddrs]
  rw [Dinode.byte, Dinode.byte, hblock]

section

variable (hok : fs.Ok) (hloaded : fs.Loaded ip) (hshape : KeepsShape change)
include hok hloaded hshape

/-- Contents do not change when an inode is amended. -/
theorem amend_byte (log : Log) (inum o : Nat) (hinum : inum < fs.sb.ninodes)
    (htype : (fs.dinode inum).type ≠ 0) (ho : o < (fs.dinode inum).size.toNat) :
    ((fs.amend ip change log).dinode inum).byte
        (fs.amend ip change log).disk o = (fs.dinode inum).byte fs.disk o := by
  rw [byte_of_addrs (amend_shape log hok hloaded hshape inum).2.2]
  exact hok.sound.byte_congr (fun c hc => @putInode_disk (fs.withCopy ip change) hok.sound.layout
    _ _ _ _ (hloaded.inum hok) hc) inum o hinum htype ho

theorem Fs.Ok.amend (log : Log) : (fs.amend ip change log).Ok := by
  have hinum := hloaded.inum hok
  have htype := hloaded.type hok
  have hsync := hloaded.sync hok
  have hentries := fun e => @amend_entries fs ip change log e
  refine hok.change (fs.inode ip).inum rfl ?_ ?_ ?_ ?_ ?_ ?_ ?_ ?_
  · have hput : (fs.amend ip change log).Sound fs.dinode :=
      (hok.sound.withInode ip _).putInode _ log hinum
    exact hput.reshape (amend_shape log hok hloaded hshape)
  · intro e
    rw [(hentries e).1]
    exact hok.ref e
  · intro e he
    rw [(hentries e).1] at he
    exact ⟨he, (hentries e).2.1⟩
  · intro e _ hne hv
    rw [Fs.amend, putInode_inode, Fs.withCopy,
      withInode_of_ne _ _ _ fun heq => hne (by rw [heq])] at hv ⊢
    exact ⟨hv, rfl⟩
  · intro e he heq _
    rw [(hentries e).1] at he
    have hip := hok.unique e ip he hloaded.ref heq
    subst hip
    rw [Fs.amend, putInode_inode, Fs.withCopy, withInode_self, ← Fs.withCopy, ← Fs.amend,
      amend_dinode, if_pos rfl]
    exact ⟨hinum, rfl, by rw [(hshape _).1]; exact htype⟩
  · intro inum _ hne
    rw [amend_dinode, if_neg hne]
  · intro inum hlt hne halloc
    have hsame : (fs.amend ip change log).dinode inum = fs.dinode inum := by
      rw [amend_dinode, if_neg hne]
    refine ⟨hsame, fun o ho => ?_⟩
    have hbyte := amend_byte hok hloaded hshape log inum o hlt halloc ho
    rwa [hsame] at hbyte
  · intro hdir k hk
    obtain ⟨hkind, hsize, _⟩ := amend_shape log hok hloaded hshape (fs.inode ip).inum
    rw [hkind] at hdir
    rw [hsize] at hk
    have hread : direntInum (fun i =>
        ((fs.amend ip change log).dinode (fs.inode ip).inum).byte
          (fs.amend ip change log).disk (DIRENT * k + i)) =
        direntInum (fun i => (fs.dinode (fs.inode ip).inum).byte fs.disk (DIRENT * k + i)) := by
      apply getLE_congr
      intro addr _ haddr
      apply amend_byte hok hloaded hshape log _ _ hinum
      · rw [hdir]
        decide
      · simp only [DIRENT] at *
        omega
    rw [hread]
    exact hok.dirs _ hinum hdir k hk

theorem Fs.Ok.amend_evolves (log : Log) (h : InodeRef → Int) :
    Fs.Evolves h 0 fs (fs.amend ip change log) := by
  refine @Fs.Ok.evolves_change fs _ (hok.amend hloaded hshape log)
    (fs.inode ip).inum rfl ?_ ?_ ?_ ?_ h
  · intro e
    have hentry := @amend_entries fs ip change log e
    exact ⟨hentry.1, hentry.2.1, hentry.2.2.1⟩
  · intro inum _ hne
    rw [amend_dinode, if_neg hne]
  · intro _
    exact (amend_shape log hok hloaded hshape _).1
  · intro htidy
    have hput : (fs.amend ip change log).Tight fs.dinode :=
      @Fs.Tight.putInode (fs.withCopy ip change) _ (hok.sound.withInode ip _)
        htidy _ _ log (hloaded.inum hok)
    refine hput.reshape fun inum => ?_
    obtain ⟨htype, _, haddrs⟩ := amend_shape log hok hloaded hshape inum
    exact ⟨htype, haddrs⟩

end

theorem Fs.Loaded.amend {e : InodeRef} (hloaded : fs.Loaded e)
    (change : Dinode → Dinode) (log : Log) : (fs.amend ip change log).Loaded e := by
  have hentry := @amend_entries fs ip change log e
  exact ⟨hentry.1 ▸ hloaded.ref, hentry.2.2.1 ▸ hloaded.valid⟩

/-- The state after `ialloc` has marked an inode as allocated. -/
theorem Fs.Ok.ialloc (hok : fs.Ok) {inum : Nat} (type : UInt16)
    (hfree : fs.firstFreeInode = some inum) (log : Log) :
    inum < fs.sb.ninodes ∧ (fs.dinode inum).type = 0 ∧ (fs.putInode inum (.fresh type) log).Ok := by
  have hmem := List.mem_range.mp (List.mem_of_find?_eq_some hfree)
  have hzero := List.find?_some hfree
  rw [decide_eq_true_eq] at hzero
  refine ⟨hmem, hzero.2, ?_⟩
  have hdinode : (fs.putInode inum (.fresh type) log).dinode =
      Function.update fs.dinode inum (.fresh type) := by
    funext other
    rw [putInode_dinode, Function.update_apply]
  refine hok.change inum rfl ?_ hok.ref (fun e he => ⟨he, rfl⟩)
    (fun e _ _ hv => ⟨hv, rfl⟩) ?_ ?_ ?_ ?_
  · rw [hdinode]
    exact (hok.sound.blank inum rfl (fun _ => rfl)).putInode _ log hmem
  · intro e he heq hv
    have htype := hok.type e he hv
    rw [hok.sync e he hv, heq] at htype
    exact (htype hzero.2).elim
  · intro other _ hne
    rw [hdinode, Function.update_of_ne hne]
  · intro other hlt hne halloc
    refine ⟨by rw [hdinode, Function.update_of_ne hne], fun o ho => ?_⟩
    exact hok.sound.byte_congr (fun c hc =>
      putInode_disk hok.sound.layout _ log hmem hc) other o hlt halloc ho
  · intro _ k hk
    rw [hdinode, Function.update_self] at hk
    simp [Dinode.fresh, DIRENT] at hk

/-- `ialloc` returns a reference to an inode that was free. -/
theorem wlp_ialloc (hok : fs.Ok) (hheld : fs.Held h) (type : UInt16) :
    wlp (ialloc type) fs (fun found fs' => (found = none ∧ fs' = fs) ∨
      ∃ ip, found = some ip ∧ Fs.Evolves h (one ip) fs fs' ∧
        fs'.locks = fs.locks ∧ (fs'.inode ip).inum < fs.sb.ninodes ∧
        (fs.dinode (fs'.inode ip).inum).type = 0 ∧
        (fs'.dinode (fs'.inode ip).inum).type = type) := by
  unfold ialloc
  rw [wlp_bind, wlp_read]
  cases hfree : fs.firstFreeInode with
  | none => exact (wlp_pure none).mpr (Or.inl ⟨rfl, rfl⟩)
  | some inum =>
    simp only [writeDinode, wlp_bind, wlp_read, wlp_logWrite]
    intro log _ ip fs' hrun
    obtain ⟨hlt, hzero, hok₁⟩ := hok.ialloc type hfree log
    have hfirst : Fs.Evolves h 0 fs (fs.putInode inum (.fresh type) log) := by
      refine @Fs.Ok.evolves_change fs _ hok₁ inum rfl
        (fun e => ⟨rfl, rfl, rfl⟩) ?_ (fun hne => (hne hzero).elim) ?_ h
      · intro other _ hne
        rw [putInode_dinode, if_neg hne]
      intro htidy
      have hnew : (fs.putInode inum (.fresh type) log).dinode =
          Function.update fs.dinode inum (.fresh type) := by
        funext other
        rw [putInode_dinode, Function.update_apply]
      rw [Fs.Tidy, hnew]
      exact (Fs.Tight.putInode hok.sound htidy _ log hlt).unowned _ (Or.inl hzero)
    have hget := iget_looks hok₁ (hfirst.held_zero hheld) hrun
    have hinum := (iget_self hrun).1
    rw [wlp_pure]
    have hlocks : fs'.locks = (fs.putInode inum (.fresh type) log).locks :=
      iget_locks hrun
    have hdinode : fs'.dinode = (fs.putInode inum (.fresh type) log).dinode :=
      iget_dinode hrun
    exact Or.inr ⟨ip, rfl, hfirst.zero_trans hget.evolves, hlocks,
      by rw [hinum]; exact hlt, by rw [hinum]; exact hzero,
      by rw [hinum, hdinode, putInode_dinode, if_pos rfl]; rfl⟩

/-- The loop of `dirlink` finds the first empty place. -/
theorem wlp_dirlinkFrom (hok : fs.Ok) {dp : InodeRef} (hloaded : fs.Loaded dp)
    (hdir : (fs.inode dp).copy.type = T_DIR)
    (fuel k : Nat) (hfuel : (fs.inode dp).copy.size.toNat < DIRENT * k + fuel) :
    wlp (dirlinkFrom dp fuel (DIRENT * k)) fs (fun off fs' => fs' = fs ∧
      off = DIRENT * (k + ((fs.view (fs.inode dp).inum).entries.drop k).findIdx
        (fun e => decide (e.inum = 0)))) := by
  rw [hok.view_node hloaded]
  have hlast : ∀ k, (fs.inode dp).copy.size.toNat ≤ DIRENT * k → DIRENT * k = DIRENT * (k +
      (((fs.inode dp).copy.node fs.disk).entries.drop k).findIdx fun e => decide (e.inum = 0)) := by
    intro k hk
    rw [Dinode.node_end hdir hk]
    rfl
  induction fuel generalizing k with
  | zero => exact (wlp_pure _).mpr ⟨rfl, hlast k (by omega)⟩
  | succ fuel ih =>
    unfold dirlinkFrom
    rw [wlp_bind, wlp_read, wlp_ite]
    split
    · refine wlp_seq (wlp_iff_ends.mpr (ends_readDirent (hok.full hloaded) _ fun _ => trivial)) ?_
      rintro de fs' ⟨rfl, hfits, hbytes⟩
      have hentry : (fs'.inode dp).copy.entryAt fs'.disk k = entryOf de :=
        entryOf_congr fun i hi => (hbytes i hi).symm
      rw [Dinode.node_drop hdir hfits, hentry, List.findIdx_cons, entryOf_inum, wlp_ite]
      split
      next hzero =>
        rw [decide_eq_true hzero]
        exact (wlp_pure _).mpr ⟨rfl, rfl⟩
      rename_i hne
      rw [decide_eq_false hne]
      refine wlp_mono (ih (k + 1) (by simp only [DIRENT] at *; omega)) ?_
      rintro off fs'' ⟨rfl, rfl⟩
      refine ⟨rfl, congrArg (DIRENT * ·) ?_⟩
      dsimp only [cond_false]
      omega
    next hend =>
      exact (wlp_pure _).mpr ⟨rfl, hlast k (by omega)⟩

/-- The inode number of an entry that `dirlink` writes. -/
theorem direntInum_dirent (name : Name) (inum : Nat) :
    direntInum (dirent name inum) = inum % 256 ^ 2 := by
  have hread : getLE (dirent name inum) 0 2 = inum / 256 ^ 0 % 256 ^ 2 := by
    apply getLE_of_leBytes
    intro k hk
    simp [dirent, hk]
  rw [direntInum, hread, pow_zero, Nat.div_one]

/-- `dirlink` leaves references as they are and directories well formed. -/
theorem ends_dirlink (hok : fs.Ok) (hnn : ∀ e, 0 ≤ h e) (hheld : fs.Held h) {dp : InodeRef}
    (hloaded : fs.Loaded dp) (name : Name) {inum : Nat} (hinum : inum < fs.sb.ninodes) :
    ends (dirlink dp name inum) fs (fun _ fs' =>
      Fs.Evolves h 0 fs fs' ∧ fs'.locks = fs.locks) Lawful := by
  unfold dirlink
  refine ends_seq (ends_dirlookup hok hheld hloaded name) ?_
  rintro found fs₁ ⟨htype, ⟨rfl, rfl, _⟩ | ⟨ip, off, rfl, hfound⟩⟩
  · dsimp only
    rw [ends_bind, ends_read, ends_bind]
    have hscan := wlp_dirlinkFrom hok hloaded htype
      ((fs₁.inode dp).copy.size.toNat + 1) 0 (by omega)
    refine Quiet.ends (quiet_dirlinkFrom _ _) (wlp_mono hscan ?_)
    rintro off fs₂ ⟨rfl, hoff⟩
    generalize 0 + List.findIdx _ _ = j at hoff
    subst hoff
    rw [ends_bind]
    have hwrite : fs₂.WriteOk dp (.kernel (dirent name inum)) (DIRENT * j) DIRENT := by
      intro _
      refine ⟨rfl, ⟨j, rfl⟩, Buffer.kernel_total _, ?_⟩
      change direntInum (dirent name inum) < _
      rw [direntInum_dirent]
      exact Nat.lt_of_le_of_lt (Nat.mod_le _ _) hinum
    refine Quiet.ends (quiet_writei _ _ _) (wlp_mono (wlp_writei
      (hok.working hloaded.ref hloaded.valid) _ _ (by decide)) ?_)
    rintro result fs₃ (⟨_, rfl⟩ | ⟨t, _, hwrote⟩)
    · exact ⟨.refl h hok, rfl⟩
    · exact ⟨hwrote.evolves hok hloaded hwrite h, hwrote.locks⟩
  · dsimp only
    rw [ends_bind]
    have hheld₁ := hfound.looks.held hheld
    refine ends_mono (ends_iput_looks hfound.looks.ok hheld₁ (hheld₁.pos hnn)) ?_
    rintro _ fs₂ ⟨hput, hlocks⟩
    refine ⟨?_, by rw [hlocks, hfound.locks]⟩
    have htrans := (hfound.looks.trans hput).evolves
    rwa [add_neg_cancel] at htrans

section Create

variable {fs : Fs} {h : InodeRef → Int} {dp ip : InodeRef}

theorem ends_createDots (hok : fs.Ok) (hnn : ∀ e, 0 ≤ h e) (hheld : fs.Held h)
    (hdp : fs.Loaded dp) (hip : fs.Loaded ip) (hipHeld : 0 < h ip)
    (type : UInt16) : ends (createDots dp ip type) fs (fun _ fs' =>
      Fs.Evolves h 0 fs fs' ∧ fs'.locks = fs.locks) Lawful := by
  unfold createDots
  rw [ends_bind, ends_read, ends_ite]
  split
  · refine ends_seq (ends_dirlink hok hnn hheld hip dotName (hok.inum ip hip.ref hip.valid)) ?_
    rintro dot fs₁ ⟨hev, hlocks⟩
    rw [ends_ite]
    split
    · have hheld₁ := hev.held_zero hheld
      refine ends_mono (ends_dirlink hev.ok hnn hheld₁ (hev.loaded hipHeld hheld₁ hip) dotdotName
        (hev.sb ▸ hok.inum dp hdp.ref hdp.valid)) ?_
      rintro _ fs₂ ⟨hev₂, hlocks₂⟩
      exact ⟨hev.zero_trans hev₂, by rw [hlocks₂, hlocks]⟩
    · exact ⟨hev, hlocks⟩
  · exact ⟨.refl h hok, rfl⟩

theorem ends_createEntries (hok : fs.Ok) (hnn : ∀ e, 0 ≤ h e) (hheld : fs.Held h)
    (hdp : fs.Loaded dp) (hip : fs.Loaded ip) (hdpHeld : 0 < h dp) (hipHeld : 0 < h ip)
    (name : Name) (type : UInt16) : ends (createEntries dp ip name type) fs (fun _ fs' =>
      Fs.Evolves h 0 fs fs' ∧ fs'.locks = fs.locks) Lawful := by
  unfold createEntries
  refine ends_seq (ends_createDots hok hnn hheld hdp hip hipHeld type) ?_
  rintro dots fs₁ ⟨hev, hlocks⟩
  rw [ends_bind, ends_read, ends_ite]
  split
  · have hheld₁ := hev.held_zero hheld
    have hip₁ := hev.loaded hipHeld hheld₁ hip
    refine ends_mono (ends_dirlink hev.ok hnn hheld₁ (hev.loaded hdpHeld hheld₁ hdp) name
      (hev.ok.inum ip hip₁.ref hip₁.valid)) ?_
    rintro _ fs₂ ⟨hev₂, hlocks₂⟩
    exact ⟨hev.zero_trans hev₂, by rw [hlocks₂, hlocks]⟩
  · exact ⟨hev, hlocks⟩

/-- What `create` leaves when it returns an inode: a reference to it, its lock
and its contents in memory. -/
structure Fs.Created (h d : InodeRef → Int) (ip : InodeRef) (type : UInt16)
    (fs fs' : Fs) : Prop where
  evolves : Fs.Evolves h d fs fs'
  loaded : fs'.Loaded ip
  inum : (fs'.inode ip).inum = (fs.inode ip).inum
  type : (fs'.inode ip).copy.type = type
  unlocked : (fs.inode ip).locked = false

theorem add_one_nonneg (hnn : ∀ e, 0 ≤ h e) (ip e : InodeRef) : 0 ≤ (h + one ip) e :=
  Int.le_trans (hnn e) (le_add_one h ip e)

theorem keepsShape_nlink (change : UInt16 → UInt16) :
    KeepsShape (fun dn => { dn with nlink := change dn.nlink }) :=
  fun _ => ⟨rfl, rfl, rfl⟩

theorem ends_createLink (hok : fs.Ok) (hnn : ∀ e, 0 ≤ h e) (hheld : fs.Held (h + one ip + one dp))
    (hdp : fs.Loaded dp) (hinum : (fs.inode ip).inum < fs.sb.ninodes) {type : UInt16}
    (htype : (fs.dinode (fs.inode ip).inum).type = type) (name : Name) (major minor : UInt16) :
    ends (createLink dp ip name type major minor) fs (fun found fs' =>
      (found = none ∧ Fs.Evolves h (-one ip - one dp) fs fs' ∧
        fs'.locks = Function.update fs.locks dp false) ∨
      (found = some ip ∧ Fs.Created h (-one dp) ip type fs fs' ∧
        fs'.locks = Function.update (Function.update fs.locks ip true) dp false)) Lawful := by
  have hnn₁ := add_one_nonneg hnn ip
  have hdpPos : 0 < (h + one ip + one dp) dp := add_one_pos hnn₁ dp
  have hipPos : 0 < (h + one ip + one dp) ip :=
    Int.lt_of_lt_of_le (add_one_pos hnn ip) (le_add_one _ dp ip)
  unfold createLink
  refine ends_seq (ends_ilock hok hinum (h + one ip + one dp)) ?_
  intro _ fs₁ hlock
  have hev₁ := hlock.looks.evolves
  have hip₁ := hlock.loaded
  have hdp₁ := hlock.others dp hdp
  rw [ends_bind, ends_setCopy, ends_bind]
  refine ends_iupdate_withCopy fun log => ?_
  have hshape : KeepsShape (fun dn => { dn with
      major := major, minor := minor, nlink := 1 }) := fun _ => ⟨rfl, rfl, rfl⟩
  have hev₂ := hev₁.ok.amend_evolves hip₁ hshape log (h + one ip + one dp)
  have hheld₂ := (hev₁.zero_trans hev₂).held_zero hheld
  refine ends_seq (ends_createEntries hev₂.ok (add_one_nonneg hnn₁ dp) hheld₂
    (hdp₁.amend _ log) (hip₁.amend _ log) hdpPos hipPos name type) ?_
  rintro linked fs₃ ⟨hev₃, hlocks₃⟩
  have hev := (hev₁.zero_trans hev₂).zero_trans hev₃
  rw [amend_locks] at hlocks₃
  have hheld₃ := hev.held_zero hheld
  have hip₃ := hev₃.loaded hipPos hheld₃ (hip₁.amend _ log)
  have hdp₃ := hev₃.loaded hdpPos hheld₃ (hdp₁.amend _ log)
  rw [ends_ite]
  split
  · have hfinish : ∀ fs₄, Fs.Evolves (h + one ip + one dp) 0 fs fs₄ →
        fs₄.locks = fs₃.locks → fs₄.Loaded ip →
        ends (iunlockput dp >>= fun _ => pure (some ip)) fs₄ (fun found fs' =>
          found = some ip ∧ Fs.Created h (-one dp) ip type fs fs' ∧
          fs'.locks = Function.update (Function.update fs.locks ip true) dp false) Lawful := by
      intro fs₄ hev₄ hlocks₄ hip₄
      have hheld₄ := hev₄.held_zero hheld
      refine ends_seq (ends_iunlockput hev₄.ok hheld₄) ?_
      rintro _ fs₅ ⟨hput, hlocks₅⟩
      have hall := (hev₄.mono (le_add_one _ dp)).zero_trans hput.evolves
      have hip₅ := hput.evolves.loaded (add_one_pos hnn ip) (hput.held_back hheld₄) hip₄
      have hnum := hall.inum ip (add_one_pos hnn ip)
      refine ⟨rfl, ⟨hall.mono (le_add_one h ip), hip₅, hnum, ?_, hlock.free⟩,
        by rw [hlocks₅, hlocks₄, hlocks₃, hlock.locks]⟩
      rw [hall.ok.sync ip hip₅.ref hip₅.valid, hnum,
        hall.type ip (add_one_pos hnn ip) hinum hlock.type, htype]
    rw [ends_bind, Code.when, ends_ite]
    split
    · rw [ends_bind, ends_setCopy]
      refine ends_iupdate_withCopy fun log' => ?_
      have hev₄ := hev₃.ok.amend_evolves hdp₃ (keepsShape_nlink (· + 1)) log' (h + one ip + one dp)
      exact ends_mono (hfinish _ (hev.zero_trans hev₄) (amend_locks log')
        (hip₃.amend _ log')) fun _ _ hpost => Or.inr hpost
    · rw [ends_pure]
      exact ends_mono (hfinish fs₃ hev rfl hip₃) fun _ _ hpost => Or.inr hpost
  · rw [ends_bind, ends_setCopy, ends_bind]
    refine ends_iupdate_withCopy fun log' => ?_
    have hev₄ := hev₃.ok.amend_evolves hip₃ (keepsShape_nlink (fun _ => 0)) log'
      (h + one ip + one dp)
    have hheld₄ := hev₄.held_zero hheld₃
    rw [add_right_comm] at hheld₄
    refine ends_seq (ends_iunlockput hev₄.ok hheld₄) ?_
    rintro _ fs₅ ⟨hput, hlocks₅⟩
    refine ends_seq (ends_iunlockput hput.ok (hput.held_back hheld₄)) ?_
    rintro _ fs₆ ⟨hput', hlocks₆⟩
    refine Or.inl ⟨rfl, ?_, ?_⟩
    · have hle : ∀ e, h e ≤ (h + one ip + one dp) e := fun e =>
        Int.le_trans (le_add_one h ip e) (le_add_one _ dp e)
      have hfour := (hev.zero_trans hev₄).mono hle
      have hfive := hfour.zero_trans (hput.evolves.mono (le_add_one h dp))
      have hsix := hfive.trans hput'.evolves
      rwa [← sub_eq_add_neg] at hsix
    · rw [hlocks₆, hlocks₅, amend_locks, hlocks₃, hlock.locks_back]

inductive Fs.CreateEnd (h : InodeRef → Int) (type : UInt16) (fs : Fs) : Option InodeRef → Fs → Prop
  /-- No inode; nothing that is held has changed. -/
  | none {fs' : Fs} (hev : Fs.Evolves h 0 fs fs')
      (hlocks : fs'.locks = fs.locks) : CreateEnd h type fs none fs'
  /-- The inode that the path names already. -/
  | old {fs' : Fs} {ip : InodeRef} (hlooks : Fs.Looks h (one ip) fs fs')
      (hloaded : fs'.Loaded ip) (hfile : type = T_FILE)
      (htype : (fs'.inode ip).copy.type = T_FILE ∨ (fs'.inode ip).copy.type = T_DEVICE)
      (hfree : fs.locks ip = false)
      (hlocks : fs'.locks = Function.update fs.locks ip true) : CreateEnd h type fs (some ip) fs'
  /-- A new inode, one that was free after the lookup. -/
  | new {fs₁ fs' : Fs} {ip : InodeRef} {d : InodeRef → Int}
      (hlooks : Fs.Looks h d fs fs₁)
      (hnew : (fs₁.dinode (fs'.inode ip).inum).type = 0)
      (hev : Fs.Evolves h (one ip) fs fs') (hloaded : fs'.Loaded ip)
      (htype : (fs'.inode ip).copy.type = type)
      (hfree : fs.locks ip = false)
      (hlocks : fs'.locks = Function.update fs.locks ip true) : CreateEnd h type fs (some ip) fs'

/-- `create` once it has found the name: leave the directory, lock the
inode. -/
theorem ends_createOld {fs₁ fs₂ : Fs} (hnn : ∀ e, 0 ≤ h e)
    (hheld : fs.Held h) (hlooks₁ : Fs.Looks h (one dp) fs fs₁)
    (hback : Function.update fs₁.locks dp false = fs.locks) {off : Nat}
    {name : Name} (hfound : Fs.Found (h + one dp) name dp ip off fs₁ fs₂) (type : UInt16) : ends (do
      iunlockput dp
      ilock ip
      let fs ← read
      let old := (fs.inode ip).copy.type
      if type = T_FILE ∧ (old = T_FILE ∨ old = T_DEVICE) then
        pure (some ip)
      else do
        iunlockput ip
        pure none) fs₂ (Fs.CreateEnd h type fs) Lawful := by
  have hheld₂ : fs₂.Held (h + one ip + one dp) := by
    rw [add_right_comm]
    exact hfound.looks.held (hlooks₁.held hheld)
  refine ends_seq (ends_iunlockput hfound.looks.ok hheld₂) ?_
  rintro _ fs₃ ⟨hput, hlocks₃⟩
  have hheld₃ := hput.held_back hheld₂
  have hlooks₃ : Fs.Looks h (one ip) fs fs₃ := by
    have htrans := (hlooks₁.trans (hfound.looks.mono (le_add_one h dp))).trans
      (hput.mono (le_add_one h ip))
    rwa [add_right_comm, add_neg_cancel, zero_add] at htrans
  have hlocks : fs₃.locks = fs.locks := by
    rw [hlocks₃, hfound.locks, hback]
  have hinum : (fs₃.inode ip).inum < fs₃.sb.ninodes := by
    rw [hput.inum ip (add_one_pos hnn ip), hput.sb, hfound.looks.sb]
    exact hfound.inum
  refine ends_seq (ends_ilock hput.ok hinum h) ?_
  intro _ fs₄ hlock
  have hlooks₄ := hlooks₃.trans_zero hlock.looks
  rw [ends_bind, ends_read, ends_ite]
  split
  next hfile =>
    exact .old hlooks₄ hlock.loaded hfile.1 hfile.2 (hlocks ▸ hlock.free)
      (by rw [hlock.locks, hlocks])
  · refine ends_seq (ends_iunlockput hlock.looks.ok (hlock.looks.held_zero hheld₃)) ?_
    rintro _ fs₅ ⟨hput', hlocks₅⟩
    refine .none ?_ (by rw [hlocks₅, hlock.locks_back, hlocks])
    have htrans := (hlooks₄.trans hput').evolves
    rwa [add_neg_cancel] at htrans

/-- `create` once the name was not found: make an inode and link it. -/
theorem ends_createNew {fs₁ : Fs} (hnn : ∀ e, 0 ≤ h e)
    (hheld : fs.Held h) (hlooks₁ : Fs.Looks h (one dp) fs fs₁)
    (hunlocked : fs₁.locks = Function.update fs.locks dp true)
    (hback : Function.update fs₁.locks dp false = fs.locks)
    (hloaded : fs₁.Loaded dp) (name : Name) (type major minor : UInt16) : ends (do
      let ip ← ialloc type
      match ip with
      | none => do
        iunlockput dp
        pure none
      | some ip => createLink dp ip name type major minor) fs₁ (Fs.CreateEnd h type fs) Lawful := by
  have hheld₁ := hlooks₁.held hheld
  rw [ends_bind]
  refine Quiet.ends (quiet_ialloc type) (wlp_mono (wlp_ialloc hlooks₁.ok hheld₁ type) ?_)
  rintro found fs₂ (⟨rfl, rfl⟩ | ⟨ip, rfl, hev₂, hlocks₂, hinum, hfree, hnew⟩)
  · dsimp only
    refine ends_seq (ends_iunlockput hlooks₁.ok hheld₁) ?_
    rintro _ fs₃ ⟨hput, hlocks₃⟩
    refine .none ?_ (by rw [hlocks₃, hback])
    have htrans := (hlooks₁.trans hput).evolves
    rwa [add_neg_cancel] at htrans
  · dsimp only
    have hdpPos : 0 < (h + one dp) dp := add_one_pos hnn dp
    have hheld₂ : fs₂.Held (h + one ip + one dp) := by
      rw [add_right_comm]
      exact hev₂.held hheld₁
    have hdp₂ : fs₂.Loaded dp := by
      refine ⟨?_, hev₂.valid dp hdpPos hloaded.valid⟩
      rw [hev₂.ref]
      exact Int.add_pos_of_pos_of_nonneg hloaded.ref (one_nonneg ip dp)
    have hne : dp ≠ ip := by
      rintro rfl
      have hold := hloaded.type hlooks₁.ok
      rw [hloaded.sync hlooks₁.ok, ← hev₂.inum dp hdpPos, hfree] at hold
      exact hold rfl
    refine ends_mono (ends_createLink hev₂.ok hnn hheld₂ hdp₂
      (hev₂.sb ▸ hinum) hnew name major minor) ?_
    rintro found fs₃ (⟨rfl, hev₃, hlocks₃⟩ | ⟨rfl, hcreated, hlocks₃⟩)
    · refine .none ?_ (by rw [hlocks₃, hlocks₂, hback])
      have htrans := (hlooks₁.evolves.trans (hev₂.mono (le_add_one h dp))).trans hev₃
      rwa [sub_eq_add_neg, ← add_assoc, add_neg_cancel_right, add_neg_cancel] at htrans
    refine .new hlooks₁ (by rw [hcreated.inum]; exact hfree) ?_ hcreated.loaded hcreated.type ?_ ?_
    · have htrans := (hlooks₁.evolves.trans (hev₂.mono (le_add_one h dp))).trans hcreated.evolves
      rwa [add_right_comm, add_neg_cancel, zero_add] at htrans
    · have hip : fs₂.locks ip = false := hcreated.unlocked
      rwa [hlocks₂, hunlocked, Function.update_of_ne hne.symm] at hip
    · rw [hlocks₃, hlocks₂, Function.update_comm hne.symm, hback]

theorem ends_create (hok : fs.Ok) (hnn : ∀ e, 0 ≤ h e) (hheld : fs.Held h)
    {cwd : Option InodeRef} (hcwd : fs.CwdOk cwd) (path : Name) (type major minor : UInt16) :
    ends (create cwd path type major minor) fs (Fs.CreateEnd h type fs) Lawful := by
  unfold create nameiparent
  refine ends_seq (ends_namex hok hnn hheld hcwd path true) ?_
  rintro found fs₁ ⟨⟨rfl, hmiss⟩ | ⟨dp, name, rfl, hnamed⟩, _⟩
  · exact .none hmiss.looks.evolves hmiss.locks
  dsimp only
  refine ends_seq (ends_ilock hnamed.looks.ok (by rw [hnamed.looks.sb]; exact hnamed.inum) h) ?_
  intro _ fs₂ hlock
  have hlooks₂ := hnamed.looks.trans_zero hlock.looks
  have hlocks₂ : fs₂.locks = Function.update fs.locks dp true := by
    rw [hlock.locks, hnamed.locks]
  have hback : Function.update fs₂.locks dp false = fs.locks := by
    rw [hlock.locks_back, hnamed.locks]
  refine ends_seq (ends_dirlookup hlooks₂.ok (hlooks₂.held hheld) hlock.loaded name) ?_
  rintro entry fs₃ ⟨_, ⟨rfl, rfl, _⟩ | ⟨ip, off, rfl, hfound⟩⟩
  · exact ends_createNew hnn hheld hlooks₂ hlocks₂ hback hlock.loaded name type major minor
  · exact ends_createOld hnn hheld hlooks₂ hback hfound type

end Create

end CkptKernel
