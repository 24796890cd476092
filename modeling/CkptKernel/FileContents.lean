/-
File contents: what `bmap`, `readi` and `writei` do to a sound file system.
The inode worked on is looked at through its in-memory copy, which runs ahead
of the disk until `iupdate`.
-/
import CkptKernel.FreeMap

namespace CkptKernel

open ByteMem Code Ownership

/-- The inodes as the kernel sees them while it works on `ip`. -/
def Fs.seen (fs : Fs) (ip : InodeRef) : Nat → Dinode :=
  Function.update fs.dinode (fs.inode ip).inum (fs.inode ip).copy

@[simp] theorem seen_self (fs : Fs) (ip : InodeRef) :
    fs.seen ip (fs.inode ip).inum = (fs.inode ip).copy := by
  simp [Fs.seen]

/-- `ip` is an allocated inode in a sound file system. -/
structure Fs.Working (fs : Fs) (ip : InodeRef) : Prop where
  sound : fs.Sound (fs.seen ip)
  inum : (fs.inode ip).inum < fs.sb.ninodes
  type : (fs.inode ip).copy.type ≠ 0

variable {fs : Fs} {ip : InodeRef}

theorem Fs.Working.live (hwork : fs.Working ip) (slot : BlockSlot) (hslot : slot.Valid) :
    LivePlace fs.sb (fs.seen ip) ((fs.inode ip).inum, slot) :=
  ⟨hwork.inum, by rw [seen_self]; exact hwork.type, hslot⟩

/-- Everything but file contents, block addresses of `ip`, the free map and
the log is as before. -/
structure Fs.Frame (ip : InodeRef) (fs fs' : Fs) : Prop where
  sb : fs'.sb = fs.sb
  others : ∀ other, other ≠ ip → fs'.inode other = fs.inode other
  self : ∃ addrs, fs'.inode ip = { fs.inode ip with
    copy := { (fs.inode ip).copy with addrs := addrs } }
  dinode : ∀ inum, inum < fs.sb.ninodes → fs'.dinode inum = fs.dinode inum

namespace Fs.Frame

variable {ip : InodeRef} {fs fs' fs'' : Fs}

theorem refl (ip : InodeRef) (fs : Fs) : Fs.Frame ip fs fs :=
  ⟨rfl, fun _ _ => rfl, ⟨_, rfl⟩, fun _ _ => rfl⟩

theorem trans (hfirst : Fs.Frame ip fs fs') (hnext : Fs.Frame ip fs' fs'') :
    Fs.Frame ip fs fs'' := by
  refine ⟨hnext.sb.trans hfirst.sb, ?_, ?_, ?_⟩
  · intro other hother
    rw [hnext.others other hother, hfirst.others other hother]
  · obtain ⟨addrs, hself⟩ := hfirst.self
    obtain ⟨addrs', hself'⟩ := hnext.self
    exact ⟨addrs', by rw [hself', hself]⟩
  · intro inum hinum
    rw [hnext.dinode inum (hfirst.sb ▸ hinum), hfirst.dinode inum hinum]

variable (hframe : Fs.Frame ip fs fs')
include hframe

theorem inum : (fs'.inode ip).inum = (fs.inode ip).inum := by
  obtain ⟨addrs, hself⟩ := hframe.self
  rw [hself]

theorem type : (fs'.inode ip).copy.type = (fs.inode ip).copy.type := by
  obtain ⟨addrs, hself⟩ := hframe.self
  rw [hself]

theorem size : (fs'.inode ip).copy.size = (fs.inode ip).copy.size := by
  obtain ⟨addrs, hself⟩ := hframe.self
  rw [hself]

/-- Inodes other than the one worked on look the same. -/
theorem seen_of_ne {inum : Nat} (hinum : inum < fs.sb.ninodes) (hne : inum ≠ (fs.inode ip).inum) :
    fs'.seen ip inum = fs.seen ip inum := by
  rw [Fs.seen, Fs.seen, hframe.inum, Function.update_of_ne hne,
    Function.update_of_ne hne, hframe.dinode inum hinum]

theorem seen_type {inum : Nat} (hinum : inum < fs.sb.ninodes) :
    (fs'.seen ip inum).type = (fs.seen ip inum).type := by
  by_cases heq : inum = (fs.inode ip).inum
  · rw [heq, seen_self, ← hframe.inum, seen_self, hframe.type]
  · rw [hframe.seen_of_ne hinum heq]

end Fs.Frame

/-- Data block `bn` of the file `inum`. -/
def Fs.dataBlock (fs : Fs) (ip : InodeRef) (inum bn : Nat) : Nat :=
  (fs.seen ip inum).blockAt fs.disk (slotOf bn)

/-- Block `bn` of the file `inum` is there. -/
structure Fs.HasBlock (fs : Fs) (ip : InodeRef) (inum bn : Nat) : Prop where
  lt : inum < fs.sb.ninodes
  type : (fs.seen ip inum).type ≠ 0
  fits : bn < MAXFILE
  mapped : fs.dataBlock ip inum bn ≠ 0

variable {inum bn : Nat}

theorem Fs.HasBlock.live (hhas : fs.HasBlock ip inum bn) :
    LivePlace fs.sb (fs.seen ip) (inum, slotOf bn) :=
  ⟨hhas.lt, hhas.type, slotOf_valid hhas.fits⟩

/-- Blocks that files had are still theirs, and of their bytes only those of
`ip` from `lo` to `hi` may have changed. -/
structure Fs.Edits (ip : InodeRef) (lo hi : Nat) (fs fs' : Fs) : Prop where
  frame : Fs.Frame ip fs fs'
  working : fs'.Working ip
  keeps : ∀ {inum bn}, fs.HasBlock ip inum bn → fs'.dataBlock ip inum bn = fs.dataBlock ip inum bn
  same : ∀ {inum bn}, fs.HasBlock ip inum bn → ∀ k, (inum = (fs.inode ip).inum →
      bn * BSIZE + k < lo ∨ hi ≤ bn * BSIZE + k) →
    fs'.disk (fs.dataBlock ip inum bn) k = fs.disk (fs.dataBlock ip inum bn) k
  tight : fs.Tight (fs.seen ip) → fs'.Tight (fs'.seen ip)

namespace Fs.Edits

variable {fs' fs'' : Fs} {lo hi : Nat}

theorem refl (hwork : fs.Working ip) : Fs.Edits ip lo hi fs fs :=
  ⟨.refl ip fs, hwork, fun _ => rfl, fun _ _ _ => rfl, id⟩

theorem has (hedits : Fs.Edits ip lo hi fs fs') (hhas : fs.HasBlock ip inum bn) :
    fs'.HasBlock ip inum bn := by
  refine ⟨hedits.frame.sb ▸ hhas.lt, ?_, hhas.fits, ?_⟩
  · rw [hedits.frame.seen_type hhas.lt]
    exact hhas.type
  · rw [hedits.keeps hhas]
    exact hhas.mapped

theorem mono {lo' hi' : Nat} (hedits : Fs.Edits ip lo hi fs fs')
    (hsub : ∀ o, lo ≤ o → o < hi → lo' ≤ o ∧ o < hi') : Fs.Edits ip lo' hi' fs fs' := by
  refine ⟨hedits.frame, hedits.working, hedits.keeps, ?_, hedits.tight⟩
  intro inum bn hhas k hout
  refine hedits.same hhas k fun heq => ?_
  have hmem := hsub (bn * BSIZE + k)
  have hnot := hout heq
  omega

theorem trans (hfirst : Fs.Edits ip lo hi fs fs')
    (hnext : Fs.Edits ip lo hi fs' fs'') : Fs.Edits ip lo hi fs fs'' := by
  refine ⟨hfirst.frame.trans hnext.frame, hnext.working, ?_, ?_, hnext.tight ∘ hfirst.tight⟩
  · intro inum bn hhas
    rw [hnext.keeps (hfirst.has hhas), hfirst.keeps hhas]
  · intro inum bn hhas k hout
    have hlast := hnext.same (hfirst.has hhas) k (by rwa [hfirst.frame.inum])
    rw [hfirst.keeps hhas] at hlast
    rw [hlast, hfirst.same hhas k hout]

end Fs.Edits

/-- What `bmap` does: data blocks stay, with their contents. -/
abbrev Fs.Maps (ip : InodeRef) : Fs → Fs → Prop := Fs.Edits ip 0 0

variable {fs' : Fs}

theorem Fs.Maps.edits (hmaps : Fs.Maps ip fs fs') (lo hi : Nat) : Fs.Edits ip lo hi fs fs' :=
  hmaps.mono fun _ _ hlt => absurd hlt (Nat.not_lt_zero _)

theorem wlp_balloc {post : Nat → Fs → Prop} (hnone : fs.firstFree = none → post 0 fs)
    (hsome : ∀ b log, fs.firstFree = some b → post b (fs.give b log)) : wlp balloc fs post := by
  unfold balloc
  rw [wlp_bind, wlp_read]
  cases hfree : fs.firstFree with
  | none => exact (wlp_pure 0).mpr (hnone hfree)
  | some b =>
    simp only [wlp_bind, bzero, wlp_logWrite, wlp_pure]
    intro log hlog log' _
    exact hsome b log' hfree

/-- The empty place `slot` of `ip` is filled with block `b` and nothing else
changes. -/
structure Fs.Fills (ip : InodeRef) (slot : BlockSlot) (b : Nat) (fs fs' : Fs) : Prop where
  free : fs.firstFree = some b
  frame : Fs.Frame ip fs fs'
  used : ∀ c, c < fs.sb.size → (fs'.used c = true ↔ c = b ∨ fs.used c = true)
  empty : (fs.inode ip).copy.blockAt fs.disk slot = 0
  filled : (fs'.inode ip).copy.blockAt fs'.disk slot = b
  rest : ∀ inum other, (inum, other) ≠ ((fs.inode ip).inum, slot) →
    LivePlace fs.sb (fs.seen ip) (inum, other) → (fs'.seen ip inum).blockAt fs'.disk other =
      (fs.seen ip inum).blockAt fs.disk other
  same : ∀ {inum bn}, fs.HasBlock ip inum bn →
    fs'.disk (fs.dataBlock ip inum bn) = fs.disk (fs.dataBlock ip inum bn)

variable {slot : BlockSlot} {b : Nat}

theorem Fs.Fills.place (hfills : Fs.Fills ip slot b fs fs') :
    placeAddr (fs'.seen ip) fs'.disk ((fs.inode ip).inum, slot) = b := by
  rw [placeAddr, ← hfills.frame.inum, seen_self]
  exact hfills.filled

theorem Fs.Fills.working (hwork : fs.Working ip)
    (hfills : Fs.Fills ip slot b fs fs') : fs'.Working ip := by
  have hframe := hfills.frame
  refine ⟨?_, ?_, ?_⟩
  · refine hwork.sound.fill hfills.free hframe.sb
      (fun c hc => (hfills.used c hc).mpr) hfills.place ?_ ?_ ?_
    · intro p hne hlive
      exact hfills.rest p.1 p.2 hne hlive
    · intro inum hinum
      exact hframe.seen_type hinum
    · intro inum hinum
      by_cases heq : inum = (fs.inode ip).inum
      · rw [heq, seen_self, ← hframe.inum, seen_self, hframe.size]
      · rw [hframe.seen_of_ne hinum heq]
  · rw [hframe.inum, hframe.sb]
    exact hwork.inum
  · rw [hframe.type]
    exact hwork.type

/-- A block that `bmap` takes from the allocator has a place at once. -/
theorem Fs.Fills.tight (hwork : fs.Working ip) (hslot : slot.Valid)
    (hfills : Fs.Fills ip slot b fs fs') (htight : fs.Tight (fs.seen ip)) :
    fs'.Tight (fs'.seen ip) := by
  have hframe := hfills.frame
  refine Covers.insert htight ((fs.inode ip).inum, slot) fs.not_given_zero ?_ ?_ hfills.place ?_ ?_
  · rw [placeAddr, seen_self]
    exact hfills.empty
  · have hlive := (hfills.working hwork).live slot hslot
    rwa [hframe.inum] at hlive
  · rintro c ⟨hdata, hsize, hmark⟩
    rw [hframe.sb] at hdata hsize
    exact ((hfills.used c hsize).mp hmark).imp_right fun hold =>
      ⟨hdata, hsize, hold⟩
  · rintro ⟨inum, other⟩ hlive hne
    refine ⟨⟨hframe.sb ▸ hlive.1, ?_, hlive.2.2⟩, hfills.rest inum other hne hlive⟩
    rw [hframe.seen_type hlive.1]
    exact hlive.2.1

theorem Fs.Fills.maps (hwork : fs.Working ip) (hslot : slot.Valid)
    (hfills : Fs.Fills ip slot b fs fs') : Fs.Maps ip fs fs' := by
  refine ⟨hfills.frame, hfills.working hwork, ?_, ?_, hfills.tight hwork hslot⟩
  · intro inum bn hhas
    refine hfills.rest inum (slotOf bn) ?_ hhas.live
    intro heq
    cases heq
    have hne := hhas.mapped
    rw [Fs.dataBlock, seen_self] at hne
    exact hne hfills.empty
  · intro inum bn hhas k _
    rw [hfills.same hhas]

/-- A changed entry of the inode table. -/
def Fs.withInode (fs : Fs) (ip : InodeRef) (change : Inode → Inode) : Fs :=
  { fs with inode := Function.update fs.inode ip (change (fs.inode ip)) }

def Fs.withCopy (fs : Fs) (ip : InodeRef) (change : Dinode → Dinode) : Fs :=
  fs.withInode ip (fun inode => { inode with copy := change inode.copy })

section WithInode

variable (fs : Fs) (ip : InodeRef) (change : Inode → Inode)

@[simp] theorem withInode_disk : (fs.withInode ip change).disk = fs.disk := rfl

@[simp] theorem withInode_dinode : (fs.withInode ip change).dinode = fs.dinode := rfl

@[simp] theorem withInode_self : (fs.withInode ip change).inode ip = change (fs.inode ip) := by
  simp [Fs.withInode]

theorem withInode_of_ne {other : InodeRef} (hne : other ≠ ip) :
    (fs.withInode ip change).inode other = fs.inode other := by
  simp [Fs.withInode, Function.update_of_ne hne]

theorem withInode_withInode (change' : Inode → Inode) :
    (fs.withInode ip change).withInode ip change' = fs.withInode ip (change' ∘ change) := by
  simp [Fs.withInode]

end WithInode

/-- Soundness does not look at the inode table. -/
theorem Fs.Sound.withInode {fs : Fs} {dn : Nat → Dinode} (hsound : fs.Sound dn)
    (ip : InodeRef) (change : Inode → Inode) : (fs.withInode ip change).Sound dn :=
  ⟨hsound.layout, hsound.marked, hsound.owned, hsound.full⟩

variable {post : Unit → Fs → Prop}

@[simp] theorem wlp_setInode {change : Inode → Inode} :
    wlp (setInode ip change) fs post ↔ post () (fs.withInode ip change) :=
  wlp_update

@[simp] theorem wlp_setCopy {change : Dinode → Dinode} :
    wlp (setCopy ip change) fs post ↔ post () (fs.withCopy ip change) :=
  wlp_update

@[simp] theorem ends_setInode {change : Inode → Inode} {stops : Stop → Prop} :
    ends (setInode ip change) fs post stops ↔ post () (fs.withInode ip change) := Iff.rfl

@[simp] theorem ends_setCopy {change : Dinode → Dinode} {stops : Stop → Prop} :
    ends (setCopy ip change) fs post stops ↔ post () (fs.withCopy ip change) := Iff.rfl

/-- `bmapSlot` fills an empty slot of `ip` with a fresh block. -/
theorem fills_slot (hwork : fs.Working ip) {i : Fin (NDIRECT + 1)} (log : Log)
    (hempty : (fs.inode ip).copy.addrs i = 0) (hfree : fs.firstFree = some b) :
    Fs.Fills ip (.addr i) b fs ((fs.give b log).withCopy ip (·.withAddr i b)) := by
  obtain ⟨hdata, hsize, hused⟩ := hwork.sound.firstFree hfree
  have hb : b < 2 ^ 32 := Nat.lt_trans hsize hwork.sound.layout.size
  have hframe : Fs.Frame ip fs ((fs.give b log).withCopy ip (·.withAddr i b)) := by
    refine ⟨rfl, ?_, ?_, ?_⟩
    · intro other hother
      simp [Fs.withCopy, Fs.withInode, Function.update_of_ne hother]
    · exact ⟨Function.update (fs.inode ip).copy.addrs i (UInt32.ofNat b), by
        simp [Fs.withCopy, Fs.withInode, Dinode.withAddr]⟩
    · intro inum hinum
      exact give_dinode hwork.sound.layout log hdata hinum
  have hself : (((fs.give b log).withCopy ip (·.withAddr i b)).inode ip).copy =
      (fs.inode ip).copy.withAddr i b := by
    simp [Fs.withCopy, Fs.withInode]
  have hold : ∀ inum slot, LivePlace fs.sb (fs.seen ip) (inum, slot) →
      (fs.seen ip inum).blockAt fs.disk slot ≠ 0 →
      (fs.give b log).disk ((fs.seen ip inum).blockAt fs.disk slot) =
        fs.disk ((fs.seen ip inum).blockAt fs.disk slot) := by
    intro inum slot hlive hne
    exact give_disk_of_ne log hsize (hwork.sound.given inum slot hlive hne).1
      (hwork.sound.firstFree_ne hfree inum slot hlive)
  have hind : ∀ inum, inum < fs.sb.ninodes → (fs.seen ip inum).type ≠ 0 →
      (fs.seen ip inum).addrs indirectSlot ≠ 0 →
      (fs.give b log).disk ((fs.seen ip inum).addrs indirectSlot).toNat =
        fs.disk ((fs.seen ip inum).addrs indirectSlot).toNat := by
    intro inum hinum htype hne
    exact hold inum (.addr indirectSlot) ⟨hinum, htype, trivial⟩
      (fun hzero => hne (UInt32.toNat_inj.mp hzero))
  refine ⟨hfree, hframe, ?_, ?_, ?_, ?_, ?_⟩
  · intro c hc
    change (fs.give b log).used c = true ↔ _
    rw [give_used log hdata hc, Bool.or_eq_true, decide_eq_true_eq]
  · exact UInt32.toNat_inj.mpr hempty
  · rw [hself]
    exact blockAt_withAddr_same hb
  · rintro inum slot hne ⟨hinum, htype, _⟩
    by_cases heq : inum = (fs.inode ip).inum
    · subst heq
      have hslot : slot ≠ .addr i := fun hslot => hne (by rw [hslot])
      have hsame := hind (fs.inode ip).inum hinum htype
      rw [seen_self] at hsame
      rw [seen_self]
      nth_rewrite 1 [← hframe.inum]
      rw [seen_self, hself]
      refine blockAt_withAddr_of_ne hempty hb (?_ : (fs.give b log).disk b = _) hsame hslot
      simp [Fs.give, put_disk]
    · rw [hframe.seen_of_ne hinum heq]
      exact blockAt_congr slot (hind inum hinum htype)
  · intro inum bn hhas
    exact hold inum (slotOf bn) hhas.live hhas.mapped

variable {j : Nat}

/-- `bmapEntry` fills an empty entry of the indirect block of `ip`. -/
theorem fills_entry (hwork : fs.Working ip) (log log' : Log)
    (hind : (fs.inode ip).copy.addrs indirectSlot ≠ 0)
    (hempty : (fs.inode ip).copy.blockAt fs.disk (.entry j) = 0) (hfree : fs.firstFree = some b) :
    Fs.Fills ip (.entry j) b fs ((fs.give b log).put
      ((fs.inode ip).copy.addrs indirectSlot).toNat (putLE ((fs.give b log).disk
        ((fs.inode ip).copy.addrs indirectSlot).toNat) (4 * j) 4 b) log') := by
  obtain ⟨hdata, hsize, hused⟩ := hwork.sound.firstFree hfree
  have hb : b < 2 ^ 32 := Nat.lt_trans hsize hwork.sound.layout.size
  have hgiven := hwork.sound.indirect_given hwork.inum
    (by rw [seen_self]; exact hwork.type) (by rw [seen_self]; exact hind)
  rw [seen_self] at hgiven
  generalize hdef : ((fs.inode ip).copy.addrs indirectSlot).toNat = ind at *
  have hindb : ind ≠ b := by
    rw [← hdef]
    have hne := hwork.sound.firstFree_ne hfree _ _ (hwork.live (.addr indirectSlot) trivial)
    rwa [seen_self] at hne
  have hold : ∀ inum slot, LivePlace fs.sb (fs.seen ip) (inum, slot) →
      (fs.seen ip inum).blockAt fs.disk slot ≠ 0 →
      (inum, slot) ≠ ((fs.inode ip).inum, .addr indirectSlot) →
      ((fs.give b log).put ind (putLE ((fs.give b log).disk ind) (4 * j) 4 b)
        log').disk ((fs.seen ip inum).blockAt fs.disk slot) =
        fs.disk ((fs.seen ip inum).blockAt fs.disk slot) := by
    intro inum slot hlive hne hplace
    have hother : (fs.seen ip inum).blockAt fs.disk slot ≠ ind := by
      intro heq
      have hunique := hwork.sound.unique inum slot (fs.inode ip).inum
        (.addr indirectSlot) hlive (hwork.live _ trivial) hne
        (by rw [heq, seen_self, ← hdef]; rfl)
      exact hplace (by rw [hunique.1, hunique.2])
    rw [put_disk, Function.update_of_ne hother]
    exact give_disk_of_ne log hsize (hwork.sound.given inum slot hlive hne).1
      (hwork.sound.firstFree_ne hfree inum slot hlive)
  have hframe : Fs.Frame ip fs ((fs.give b log).put ind
      (putLE ((fs.give b log).disk ind) (4 * j) 4 b) log') := by
    refine ⟨rfl, fun _ _ => rfl, ⟨_, rfl⟩, ?_⟩
    intro inum hinum
    have hlt := hwork.sound.layout.IBLOCK_lt_datastart hinum
    have hlow := hgiven.1
    rw [dinode_put_of_ne _ _ (by rw [give_sb]; omega),
      give_dinode hwork.sound.layout log hdata hinum]
  have hentries : ∀ slot, (fs.inode ip).copy.blockAt ((fs.give b log).put ind
      (putLE ((fs.give b log).disk ind) (4 * j) 4 b) log').disk slot = if slot = .entry j then b
      else (fs.inode ip).copy.blockAt fs.disk slot := by
    apply blockAt_putEntry hind hb
    rw [hdef, put_disk, Function.update_self, give_disk_of_ne log hsize hgiven.1 hindb]
  refine ⟨hfree, hframe, ?_, hempty, ?_, ?_, ?_⟩
  · intro c hc
    have hlt := BBLOCK_lt_datastart hc
    have hlow := hgiven.1
    rw [used_put_of_ne _ _ (by rw [give_sb]; omega),
      give_used log hdata hc, Bool.or_eq_true, decide_eq_true_eq]
  · rw [put_inode, give_inode, hentries, if_pos rfl]
  · rintro inum slot hne ⟨hinum, htype, hvalid⟩
    by_cases heq : inum = (fs.inode ip).inum
    · subst heq
      have hslot : slot ≠ .entry j := fun hslot => hne (by rw [hslot])
      rw [seen_self]
      nth_rewrite 1 [← hframe.inum]
      rw [seen_self, put_inode, give_inode, hentries, if_neg hslot]
    · rw [hframe.seen_of_ne hinum heq]
      apply blockAt_congr
      intro hother
      refine hold inum (.addr indirectSlot) ⟨hinum, htype, trivial⟩
        (fun hzero => hother (UInt32.toNat_inj.mp hzero)) ?_
      intro hpair
      exact heq (congrArg Prod.fst hpair)
  · intro inum bn hhas
    refine hold inum (slotOf bn) hhas.live hhas.mapped ?_
    intro hpair
    exact slotOf_ne_indirect bn (congrArg Prod.snd hpair)

/-- A place of `ip` is as it was or has been filled. -/
def Fs.MayFill (ip : InodeRef) (slot : BlockSlot) (fs fs' : Fs) : Prop :=
  fs' = fs ∨ ∃ b, Fs.Fills ip slot b fs fs'

theorem Fs.MayFill.maps (hwork : fs.Working ip) (hfill : Fs.MayFill ip slot fs fs')
    (hslot : slot.Valid) : Fs.Maps ip fs fs' := by
  rcases hfill with rfl | ⟨b, hfills⟩
  · exact .refl hwork
  · exact hfills.maps hwork hslot

def Fs.Spare (fs : Fs) (b : Nat) : Prop := b < fs.sb.size ∧ fs.used b = false

theorem not_spare_of_firstFree (hnone : fs.firstFree = none) (b : Nat) : ¬fs.Spare b := by
  rintro ⟨hlt, hfree⟩
  have hused := List.find?_eq_none.mp hnone b (List.mem_range.mpr hlt)
  rw [hfree] at hused
  exact hused rfl

theorem spare_of_firstFree (hfree : fs.firstFree = some b) : fs.Spare b := by
  have hmem := List.mem_of_find?_eq_some hfree
  have hsat := List.find?_some hfree
  exact ⟨List.mem_range.mp hmem, by simpa using hsat⟩

/-- Filling a place takes one of the spare blocks. -/
theorem Fs.Fills.spare_iff (hfills : Fs.Fills ip slot b fs fs') (c : Nat) :
    fs'.Spare c ↔ c ≠ b ∧ fs.Spare c := by
  unfold Fs.Spare
  rw [hfills.frame.sb]
  constructor
  · rintro ⟨hlt, hfree⟩
    rw [← Bool.not_eq_true, hfills.used c hlt, not_or, Bool.not_eq_true] at hfree
    exact ⟨hfree.1, hlt, hfree.2⟩
  · rintro ⟨hne, hlt, hfree⟩
    refine ⟨hlt, ?_⟩
    rw [← Bool.not_eq_true, hfills.used c hlt, not_or, Bool.not_eq_true]
    exact ⟨hne, hfree⟩

/-- Block 0 is never handed out. -/
theorem Fs.Working.firstFree_ne_zero (hwork : fs.Working ip)
    (hfree : fs.firstFree = some b) : b ≠ 0 := by
  have hdata := (hwork.sound.firstFree hfree).1
  have hpos : 0 < fs.sb.datastart := Nat.succ_pos _
  omega

/-- A place of `ip` was looked up: `addr` is in it now, or 0 where the disk has
no block for it. -/
structure Fs.Finds (ip : InodeRef) (slot : BlockSlot) (addr : Nat)
    (fs fs' : Fs) : Prop where
  fill : Fs.MayFill ip slot fs fs'
  found : addr ≠ 0 → (fs'.inode ip).copy.blockAt fs'.disk slot = addr
  told : addr ≠ 0 ↔ (fs.inode ip).copy.blockAt fs.disk slot ≠ 0 ∨ ∃ b, fs.Spare b

theorem Fs.Finds.there (hne : (fs.inode ip).copy.blockAt fs.disk slot ≠ 0) :
    Fs.Finds ip slot ((fs.inode ip).copy.blockAt fs.disk slot) fs fs :=
  ⟨Or.inl rfl, fun _ => rfl, iff_of_true hne (Or.inl hne)⟩

theorem Fs.Finds.none (hempty : (fs.inode ip).copy.blockAt fs.disk slot = 0)
    (hnone : fs.firstFree = none) : Fs.Finds ip slot 0 fs fs := by
  refine ⟨Or.inl rfl, fun hne => (hne rfl).elim, iff_of_false (· rfl) ?_⟩
  rintro (hne | ⟨b, hspare⟩)
  · exact hne hempty
  · exact not_spare_of_firstFree hnone b hspare

theorem Fs.Fills.finds (hwork : fs.Working ip)
    (hfills : Fs.Fills ip slot b fs fs') : Fs.Finds ip slot b fs fs' :=
  ⟨Or.inr ⟨b, hfills⟩, fun _ => hfills.filled, iff_of_true (hwork.firstFree_ne_zero hfills.free)
      (Or.inr ⟨b, spare_of_firstFree hfills.free⟩)⟩

theorem wlp_bmapSlot (hwork : fs.Working ip) (i : Fin (NDIRECT + 1)) :
    wlp (bmapSlot ip i) fs (Fs.Finds ip (.addr i) · fs) := by
  unfold bmapSlot
  rw [wlp_bind, wlp_read, wlp_ite]
  split
  next hne =>
    exact (wlp_pure _).mpr (.there fun hzero => hne (UInt32.toNat_inj.mp hzero))
  rename_i hempty
  rw [not_not] at hempty
  rw [wlp_bind]
  refine wlp_balloc ?_ ?_
  · intro hnone
    rw [if_pos rfl]
    exact (wlp_pure _).mpr (.none (UInt32.toNat_inj.mpr hempty) hnone)
  · intro b log hfree
    rw [if_neg (hwork.firstFree_ne_zero hfree), wlp_bind, wlp_setCopy, wlp_pure]
    exact (fills_slot hwork log hempty hfree).finds hwork

theorem wlp_bmapEntry (hwork : fs.Working ip)
    (j : Nat) (hind : (fs.inode ip).copy.addrs indirectSlot ≠ 0) :
    wlp (bmapEntry ((fs.inode ip).copy.addrs indirectSlot).toNat j) fs
      (Fs.Finds ip (.entry j) · fs) := by
  have hentry : fs.entry ((fs.inode ip).copy.addrs indirectSlot).toNat j =
      (fs.inode ip).copy.blockAt fs.disk (.entry j) := by
    simp [Fs.entry, Dinode.blockAt, hind]
  unfold bmapEntry
  rw [wlp_bind, wlp_read, wlp_ite, hentry]
  split
  next hne =>
    exact (wlp_pure _).mpr (.there hne)
  rename_i hempty
  rw [not_not] at hempty
  rw [wlp_bind]
  refine wlp_balloc ?_ ?_
  · intro hnone
    simp only [bread, Code.when, wlp_bind, wlp_read, wlp_pure, ne_eq, not_true_eq_false, if_false]
    exact .none hempty hnone
  · intro b log hfree
    simp only [bread, Code.when, wlp_bind, wlp_read, wlp_pure, ne_eq,
      hwork.firstFree_ne_zero hfree, not_false_eq_true, if_true, wlp_logWrite]
    intro log' _
    exact (fills_entry hwork log log' hind hempty hfree).finds hwork

/-- Block `bn` of an inode is there or can be allocated.  Past the direct
blocks it may take a block more, for the addresses. -/
def Fs.Mappable (fs : Fs) (dn : Dinode) (bn : Nat) : Prop :=
  dn.blockAt fs.disk (slotOf bn) ≠ 0 ∨ ∃ b, fs.Spare b ∧
    (bn < NDIRECT ∨ dn.addrs indirectSlot ≠ 0 ∨ ∃ b', b' ≠ b ∧ fs.Spare b')

/-- Where the disk has room for an entry, from before the block of addresses
was looked up. -/
theorem mappable_entry (hwork : fs.Working ip) (hindirect : ¬bn < NDIRECT)
    (hbn : bn < MAXFILE) (hfill : Fs.MayFill ip (.addr indirectSlot) fs fs')
    (hind : (fs'.inode ip).copy.addrs indirectSlot ≠ 0) :
    ((fs'.inode ip).copy.blockAt fs'.disk (.entry (bn - NDIRECT)) ≠ 0 ∨
      ∃ b, fs'.Spare b) ↔ fs.Mappable (fs.inode ip).copy bn := by
  have hslot : slotOf bn = .entry (bn - NDIRECT) := by
    rw [slotOf, dif_neg hindirect]
  unfold Fs.Mappable
  rw [hslot]
  rcases hfill with rfl | ⟨b, hfills⟩
  · exact or_congr Iff.rfl (exists_congr fun b => (and_iff_left (Or.inr (Or.inl hind))).symm)
  -- one spare block goes to the addresses, which are all empty
  have hnoind : (fs.inode ip).copy.addrs indirectSlot = 0 :=
    UInt32.toNat_inj.mp hfills.empty
  have hnone : (fs.inode ip).copy.blockAt fs.disk (.entry (bn - NDIRECT)) = 0 := by
    rw [Dinode.blockAt, if_pos hnoind]
  have hnew := hfills.rest (fs.inode ip).inum (slotOf bn)
    (by rw [hslot]; simp) (hwork.live _ (slotOf_valid hbn))
  rw [seen_self, ← hfills.frame.inum, seen_self, hslot, hnone] at hnew
  rw [hnew, hnone]
  constructor
  · rintro (hne | ⟨c, hspare⟩)
    · exact (hne rfl).elim
    · obtain ⟨hne, hspare⟩ := (hfills.spare_iff c).mp hspare
      exact Or.inr ⟨b, spare_of_firstFree hfills.free, Or.inr (Or.inr ⟨c, hne, hspare⟩)⟩
  · rintro (hne | ⟨c, hspare, hdirect | hmore | ⟨c', hne, hspare'⟩⟩)
    · exact (hne rfl).elim
    · exact (hindirect hdirect).elim
    · exact (hmore hnoind).elim
    · refine Or.inr ?_
      by_cases heq : c = b
      · exact ⟨c', (hfills.spare_iff c').mpr ⟨heq ▸ hne, hspare'⟩⟩
      · exact ⟨c, (hfills.spare_iff c).mpr ⟨heq, hspare⟩⟩

/-- `bmap` returns the address of the block, or 0 where the disk has no room
for it. -/
theorem wlp_bmap (hwork : fs.Working ip) (bn : Nat) :
    wlp (bmap ip bn) fs (fun addr fs' => Fs.Maps ip fs fs' ∧
      (addr ≠ 0 → (fs'.inode ip).copy.blockAt fs'.disk (slotOf bn) = addr) ∧
      (addr ≠ 0 ↔ fs.Mappable (fs.inode ip).copy bn)) := by
  unfold bmap
  split
  next hdirect =>
    refine wlp_mono (wlp_bmapSlot hwork _) fun addr fs' hfinds => ?_
    rw [Fs.Mappable, slotOf, dif_pos hdirect]
    exact ⟨hfinds.fill.maps hwork trivial, hfinds.found, hfinds.told.trans
      (or_congr Iff.rfl (exists_congr fun b => (and_iff_left (Or.inl hdirect)).symm))⟩
  next hindirect =>
    rw [wlp_ite]
    split
    next hentries =>
      have hbn : bn < MAXFILE := by
        simp only [MAXFILE]
        omega
      refine wlp_seq (wlp_bmapSlot hwork indirectSlot) ?_
      intro ind fs' hfinds
      have hmaps := hfinds.fill.maps hwork trivial
      rw [slotOf, dif_neg hindirect, wlp_ite]
      split
      next hzero =>
        obtain ⟨hempty, hfull⟩ := not_or.mp fun hroom =>
          hfinds.told.mpr hroom hzero
        refine (wlp_pure _).mpr ⟨hmaps, fun hne => (hne rfl).elim, iff_of_false (· rfl) ?_⟩
        rintro (hmapped | ⟨b, hspare, _⟩)
        · have hnoind : (fs.inode ip).copy.addrs indirectSlot = 0 :=
            UInt32.toNat_inj.mp (not_not.mp hempty)
          rw [slotOf, dif_neg hindirect, Dinode.blockAt, if_pos hnoind] at hmapped
          exact hmapped rfl
        · exact hfull ⟨b, hspare⟩
      next hne =>
        have haddr := hfinds.found hne
        rw [Dinode.blockAt] at haddr
        have hind : (fs'.inode ip).copy.addrs indirectSlot ≠ 0 := by
          intro hzero
          rw [hzero] at haddr
          exact hne haddr.symm
        have hentry := wlp_bmapEntry hmaps.working (bn - NDIRECT) hind
        rw [haddr] at hentry
        refine wlp_mono hentry fun addr fs'' hentry => ?_
        exact ⟨hmaps.trans (hentry.fill.maps hmaps.working hentries),
          hentry.found, hentry.told.trans (mappable_entry hwork hindirect hbn hfinds.fill hind)⟩
    · exact wlp_panic.mpr trivial

theorem bmapSlot_mapped {i : Fin (NDIRECT + 1)} (hne : (fs.inode ip).copy.addrs i ≠ 0) :
    bmapSlot ip i fs = .ok (((fs.inode ip).copy.addrs i).toNat, fs) := by
  unfold bmapSlot
  rw [read_bind, if_pos hne, pure_run]

/-- A block that is there is found without any change. -/
theorem bmap_mapped (hbn : bn < MAXFILE)
    (hmapped : (fs.inode ip).copy.blockAt fs.disk (slotOf bn) ≠ 0) : bmap ip bn fs =
      .ok ((fs.inode ip).copy.blockAt fs.disk (slotOf bn), fs) := by
  unfold slotOf at hmapped ⊢
  unfold bmap
  split
  next hdirect =>
    rw [dif_pos hdirect] at hmapped
    exact bmapSlot_mapped fun hzero => hmapped (UInt32.toNat_inj.mpr hzero)
  rename_i hdirect
  rw [dif_neg hdirect] at hmapped
  have hentries : bn - NDIRECT < NINDIRECT := by
    simp only [MAXFILE] at hbn
    omega
  have hind : (fs.inode ip).copy.addrs indirectSlot ≠ 0 := by
    intro hzero
    simp [Dinode.blockAt, hzero] at hmapped
  have hindNat : ((fs.inode ip).copy.addrs indirectSlot).toNat ≠ 0 :=
    fun hzero => hind (UInt32.toNat_inj.mp hzero)
  have hentry : (fs.inode ip).copy.blockAt fs.disk (.entry (bn - NDIRECT)) =
      fs.entry ((fs.inode ip).copy.addrs indirectSlot).toNat (bn - NDIRECT) := by
    simp [Fs.entry, Dinode.blockAt, hind]
  rw [if_pos hentries, bind_of_ok (bmapSlot_mapped hind), if_neg hindNat, hentry]
  rw [hentry] at hmapped
  unfold bmapEntry
  rw [read_bind, if_pos hmapped, pure_run]

/-- Byte `o` of a file. -/
def Dinode.byte (dn : Dinode) (disk : Disk) (o : Nat) : UInt8 :=
  disk (dn.blockAt disk (slotOf (o / BSIZE))) (o % BSIZE)

/-- Blocks of a file up to its size are there. -/
theorem Dinode.Full.mapped_at {dn : Dinode} {disk : Disk} (hfull : dn.Full disk) {o : Nat}
    (ho : o < dn.size.toNat) : o / BSIZE < MAXFILE ∧ dn.blockAt disk (slotOf (o / BSIZE)) ≠ 0 := by
  have hmul : o / BSIZE * BSIZE ≤ o := Nat.div_mul_le_self o BSIZE
  refine ⟨?_, hfull.mapped _ (Nat.lt_of_le_of_lt hmul ho)⟩
  have hlt := Nat.lt_of_lt_of_le ho hfull.size
  exact Nat.div_lt_of_lt_mul (by rwa [Nat.mul_comm] at hlt)

/-- Bytes from `o` to the end of its block. -/
theorem byte_add {dn : Dinode} {disk : Disk} {o k : Nat}
    (hk : o % BSIZE + k < BSIZE) : dn.byte disk (o + k) =
      disk (dn.blockAt disk (slotOf (o / BSIZE))) (o % BSIZE + k) := by
  simp only [BSIZE] at hk
  have hdiv : (o + k) / BSIZE = o / BSIZE := by
    simp only [BSIZE]
    omega
  have hmod : (o + k) % BSIZE = o % BSIZE + k := by
    simp only [BSIZE]
    omega
  rw [Dinode.byte, hdiv, hmod]

/-- The part of a block that one iteration of `readi` or `writei` handles. -/
theorem chunk_bounds (o : Nat) {left : Nat} (hleft : 0 < left) : 0 < min left (BSIZE - o % BSIZE) ∧
      o % BSIZE + min left (BSIZE - o % BSIZE) ≤ BSIZE := by
  have hmod : o % BSIZE < BSIZE := Nat.mod_lt _ (by decide)
  omega

section Reach

variable {access : Nat → Bool}

theorem reach_le (access : Nat → Bool) (tot m : Nat) : reach access tot m ≤ m := by
  induction m generalizing tot with
  | zero => exact Nat.le_refl 0
  | succ m ih =>
    rw [reach]
    split
    · exact Nat.succ_le_succ (ih (tot + 1))
    · exact Nat.zero_le _

theorem reach_eq_iff {tot m : Nat} :
    reach access tot m = m ↔ ∀ k, k < m → access (tot + k) = true := by
  induction m generalizing tot with
  | zero => simp [reach]
  | succ m ih =>
    rw [reach]
    split
    next hfirst =>
      rw [Nat.add_right_cancel_iff, ih]
      constructor
      · intro hrest k hk
        cases k with
        | zero => exact hfirst
        | succ k =>
          have hnext := hrest k (Nat.lt_of_succ_lt_succ hk)
          rwa [Nat.add_right_comm] at hnext
      · intro hall k hk
        have hnext := hall (k + 1) (Nat.succ_lt_succ hk)
        rwa [← Nat.add_assoc, Nat.add_right_comm] at hnext
    next hfirst =>
      refine ⟨fun habs => absurd habs (by omega), fun hall => ?_⟩
      exact absurd (hall 0 (Nat.succ_pos m)) hfirst

/-- A copy in two parts stops where the whole copy does. -/
theorem reach_add (tot m l : Nat) : reach access tot (m + l) = if reach access tot m = m then
      m + reach access (tot + m) l else reach access tot m := by
  induction m generalizing tot with
  | zero => simp [reach]
  | succ m ih =>
    rw [Nat.add_right_comm, reach, reach]
    split
    next =>
      have hplace : tot + 1 + m = tot + (m + 1) := by omega
      rw [ih, hplace]
      split <;> split <;> omega
    next => simp

end Reach

/-- The loop of `readi` to a user address delivers the bytes of a file without
holes up to the first page it cannot write. -/
theorem readLoop_user {off n : Nat} (hfull : (fs.inode ip).copy.Full fs.disk)
    (hsize : off + n ≤ (fs.inode ip).copy.size.toNat) (access : Nat → Bool)
    (src : Bytes) (fuel : Nat) {tot : Nat} (htot : tot ≤ n) (hfuel : n - tot ≤ fuel) (dst : Bytes) :
    readLoop ip (.user src access) off n fuel tot dst fs =
      .ok ((if reach access tot (n - tot) = n - tot then some n else none,
        blit dst tot (reach access tot (n - tot)) (fun i =>
          (fs.inode ip).copy.byte fs.disk (off + tot + i))), fs) := by
  induction fuel generalizing tot dst with
  | zero =>
    have heq : tot = n := by omega
    subst heq
    rw [readLoop, pure_run, Nat.sub_self, reach, if_pos rfl, blit_zero]
  | succ fuel ih =>
    unfold readLoop
    by_cases hlt : tot < n
    · have hmapped := hfull.mapped_at (o := off + tot) (by omega)
      obtain ⟨hpos, hfits⟩ := chunk_bounds (off + tot) (Nat.sub_pos_of_lt hlt)
      rw [if_pos hlt, bind_of_ok (bmap_mapped hmapped.1 hmapped.2),
        if_neg hmapped.2, bind_of_ok (show bread _ fs = .ok (fs.disk _, fs) from rfl)]
      generalize hm : min (n - tot) (BSIZE - (off + tot) % BSIZE) = m at *
      have hmn : tot + m ≤ n := by omega
      have hsplit : n - tot = m + (n - (tot + m)) := by omega
      have hchunk := reach_le access tot m
      have hcopied : (Buffer.user src access).copied tot m = reach access tot m := rfl
      simp only [hcopied, Nat.min_eq_left hchunk]
      rw [hsplit, reach_add]
      by_cases hall : reach access tot m = m
      · rw [if_neg (by omega), ih hmn (by omega), if_pos hall, hall]
        simp only [Nat.add_left_cancel_iff]
        congr 3
        -- the chunk and the rest of the transfer are one copy
        rw [blit_append]
        funext addr
        unfold blit
        by_cases hin : tot ≤ addr ∧ addr < tot + (m + reach access (tot + m) (n - (tot + m)))
        · rw [if_pos hin, if_pos hin]
          dsimp only
          split
          · have hplace : off + (tot + m) + (addr - tot - m) = off + tot + (addr - tot) := by omega
            rw [hplace]
          · rw [byte_add (by omega)]
        · rw [if_neg hin, if_neg hin]
      · rw [if_pos (by omega), pure_run, if_neg hall, if_neg (by omega)]
        congr 3
        funext addr
        unfold blit
        split
        · dsimp only
          rw [byte_add (by omega)]
        · rfl
    · have heq : tot = n := by omega
      subst heq
      rw [if_neg hlt, pure_run, Nat.sub_self, reach, if_pos rfl, blit_zero]

/-- How much `readi` delivers. -/
def Dinode.readable (dn : Dinode) (off n : Nat) : Nat :=
  if dn.size.toNat < off ∨ (off + n) % 2 ^ 32 < off then 0
  else min n (dn.size.toNat - off)

/-- `readi` to a user address, from a file without holes. -/
theorem readi_user (hfull : (fs.inode ip).copy.Full fs.disk) (access : Nat → Bool) (dst : Bytes)
    (off n : Nat) : let count := (fs.inode ip).copy.readable off n
    readi ip (.user dst access) off n fs =
      .ok ((if reach access 0 count = count then some count else none,
        blit dst 0 (reach access 0 count) (fun i =>
          (fs.inode ip).copy.byte fs.disk (off + i))), fs) := by
  unfold readi Dinode.readable
  rw [read_bind]
  by_cases hout : (fs.inode ip).copy.size.toNat < off ∨ (off + n) % 2 ^ 32 < off
  · simp only [if_pos hout, reach, if_true, blit_zero]
    rfl
  have hcount : (if (fs.inode ip).copy.size.toNat < off + n then
      (fs.inode ip).copy.size.toNat - off else n) =
      min n ((fs.inode ip).copy.size.toNat - off) := by
    split <;> omega
  simp only [if_neg hout, hcount]
  rw [readLoop_user hfull (by omega) access dst _ (Nat.zero_le _) (by omega)]
  rfl

/-- A kernel address is a user address without bad pages. -/
theorem Buffer.kernel_eq (bytes : Bytes) : Buffer.kernel bytes = .user bytes (fun _ => true) := by
  have hall : reach (fun _ => true) = fun _ m => m := by
    funext tot m
    exact reach_eq_iff.mpr fun _ _ => rfl
  rw [Buffer.kernel, Buffer.user, hall]

/-- `readi` to a kernel address, from a file without holes. -/
theorem readi_kernel (hfull : (fs.inode ip).copy.Full fs.disk) (dst : Bytes) (off n : Nat) :
    readi ip (.kernel dst) off n fs = .ok ((some ((fs.inode ip).copy.readable off n),
        blit dst 0 ((fs.inode ip).copy.readable off n) (fun i =>
          (fs.inode ip).copy.byte fs.disk (off + i))), fs) := by
  have hall := @reach_eq_iff (fun _ => true) 0 ((fs.inode ip).copy.readable off n)
  rw [Buffer.kernel_eq, readi_user hfull, hall.mpr fun _ _ => rfl, if_pos rfl]

end CkptKernel
