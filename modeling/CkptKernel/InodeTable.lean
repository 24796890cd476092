/-
The inode table between the steps of a call: which entries are in use, how
they follow the disk, and what finding, locking and unlocking an inode leaves
as it was.
-/
import CkptKernel.Directory
import CkptKernel.FileWrites

namespace CkptKernel

open ByteMem Code

/-- The file system between two changes of an inode. -/
structure Fs.Ok (fs : Fs) : Prop where
  sound : fs.Sound fs.dinode
  root : ROOTINO < fs.sb.ninodes
  ref : ∀ e, 0 ≤ (fs.inode e).ref
  unique : ∀ e e', 0 < (fs.inode e).ref → 0 < (fs.inode e').ref →
    (fs.inode e).inum = (fs.inode e').inum → e = e'
  inum : ∀ e, 0 < (fs.inode e).ref → (fs.inode e).valid = true → (fs.inode e).inum < fs.sb.ninodes
  sync : ∀ e, 0 < (fs.inode e).ref → (fs.inode e).valid = true →
    (fs.inode e).copy = fs.dinode (fs.inode e).inum
  type : ∀ e, 0 < (fs.inode e).ref → (fs.inode e).valid = true → (fs.inode e).copy.type ≠ 0
  /-- Directory entries name inodes of the disk. -/
  dirs : ∀ inum, inum < fs.sb.ninodes → (fs.dinode inum).type = T_DIR →
    ∀ k, DIRENT * k + DIRENT ≤ (fs.dinode inum).size.toNat →
      direntInum (fun i => (fs.dinode inum).byte fs.disk (DIRENT * k + i)) < fs.sb.ninodes

/-- One reference to `ip`. -/
def one (ip : InodeRef) : InodeRef → Int := fun e => if e = ip then 1 else 0

@[simp] theorem one_self (ip : InodeRef) : one ip ip = 1 := if_pos rfl

variable {ip : InodeRef}

theorem one_of_ne {e : InodeRef} (hne : e ≠ ip) : one ip e = 0 := if_neg hne

theorem one_nonneg (ip e : InodeRef) : 0 ≤ one ip e := by
  unfold one
  split <;> omega

/-- The table counts at least the references `h`. -/
def Fs.Held (fs : Fs) (h : InodeRef → Int) : Prop :=
  ∀ e, h e ≤ (fs.inode e).ref

def Fs.locks (fs : Fs) : InodeRef → Bool := fun e => (fs.inode e).locked

variable {fs : Fs}

theorem withInode_locks (change : Inode → Inode)
    (hsame : (change (fs.inode ip)).locked = (fs.inode ip).locked) :
    (fs.withInode ip change).locks = fs.locks := by
  funext e
  by_cases heq : e = ip
  · rw [Fs.locks, Fs.locks, heq, withInode_self, hsame]
  · rw [Fs.locks, Fs.locks, withInode_of_ne _ _ _ heq]

def Fs.SameFile (fs fs' : Fs) (inum : Nat) : Prop :=
  fs'.dinode inum = fs.dinode inum ∧ ∀ o, o < (fs.dinode inum).size.toNat →
      (fs.dinode inum).byte fs'.disk o = (fs.dinode inum).byte fs.disk o

theorem Fs.SameFile.refl (fs : Fs) (inum : Nat) : fs.SameFile fs inum :=
  ⟨rfl, fun _ _ => rfl⟩

variable {fs' : Fs} {inum : Nat}

theorem Fs.SameFile.trans {fs'' : Fs}
    (hfirst : fs.SameFile fs' inum) (hnext : fs'.SameFile fs'' inum) : fs.SameFile fs'' inum := by
  obtain ⟨hdinode, hbytes⟩ := hfirst
  obtain ⟨hdinode', hbytes'⟩ := hnext
  refine ⟨hdinode'.trans hdinode, fun o ho => ?_⟩
  rw [hdinode] at hbytes'
  rw [hbytes' o ho, hbytes o ho]

/-- References change by `d`, and the entries of inodes held by `h` stay. -/
structure Fs.Follows (h d : InodeRef → Int) (fs fs' : Fs) : Prop where
  ok : fs'.Ok
  sb : fs'.sb = fs.sb
  ref : ∀ e, (fs'.inode e).ref = (fs.inode e).ref + d e
  inum : ∀ e, 0 < h e → (fs'.inode e).inum = (fs.inode e).inum
  valid : ∀ e, 0 < h e → (fs.inode e).valid = true → (fs'.inode e).valid = true
  tidy : fs.Tidy → fs'.Tidy

namespace Fs.Follows

variable {h h' d d' : InodeRef → Int} {fs fs' fs'' : Fs}

theorem trans (hfirst : Fs.Follows h d fs fs') (hnext : Fs.Follows h d' fs' fs'') :
    Fs.Follows h (d + d') fs fs'' := by
  refine ⟨hnext.ok, hnext.sb.trans hfirst.sb, ?_, ?_, ?_, hnext.tidy ∘ hfirst.tidy⟩
  · intro e
    rw [hnext.ref, hfirst.ref, Pi.add_apply, Int.add_assoc]
  · intro e he
    rw [hnext.inum e he, hfirst.inum e he]
  · intro e he hvalid
    exact hnext.valid e he (hfirst.valid e he hvalid)

/-- Fewer references are held. -/
theorem mono (hfollows : Fs.Follows h d fs fs') (hpos : ∀ e, 0 < h' e → 0 < h e) :
    Fs.Follows h' d fs fs' :=
  ⟨hfollows.ok, hfollows.sb, hfollows.ref, fun e he => hfollows.inum e (hpos e he),
    fun e he => hfollows.valid e (hpos e he), hfollows.tidy⟩

theorem held (hfollows : Fs.Follows h d fs fs') {c : InodeRef → Int}
    (hheld : fs.Held c) : fs'.Held (c + d) := by
  intro e
  rw [hfollows.ref, Pi.add_apply]
  have hle := hheld e
  omega

theorem held_zero (hfollows : Fs.Follows h 0 fs fs') {c : InodeRef → Int}
    (hheld : fs.Held c) : fs'.Held c := by
  have hnext := hfollows.held hheld
  rwa [add_zero] at hnext

end Fs.Follows

/-- What a call may do that only looks inodes up: every inode that is linked or
held by `h` is as it was. -/
structure Fs.Looks (h d : InodeRef → Int) (fs fs' : Fs) : Prop extends Fs.Follows h d fs fs' where
  kept : ∀ inum, inum < fs.sb.ninodes → (fs.dinode inum).type ≠ 0 →
    ((fs.dinode inum).nlink ≠ 0 ∨ ∃ e, 0 < h e ∧ (fs.inode e).inum = inum) → fs.SameFile fs' inum

namespace Fs.Looks

variable {h h' d d' : InodeRef → Int} {fs fs' fs'' : Fs}

theorem refl (h : InodeRef → Int) (hok : fs.Ok) : Fs.Looks h 0 fs fs :=
  ⟨⟨hok, rfl, fun e => by simp, fun _ _ => rfl, fun _ _ hvalid => hvalid, id⟩,
    fun inum _ _ _ => .refl fs inum⟩

theorem trans (hfirst : Fs.Looks h d fs fs') (hnext : Fs.Looks h d' fs' fs'') :
    Fs.Looks h (d + d') fs fs'' := by
  refine ⟨hfirst.toFollows.trans hnext.toFollows, ?_⟩
  intro inum hinum htype hkept
  have hsame := hfirst.kept inum hinum htype hkept
  refine hsame.trans (hnext.kept inum (hfirst.sb ▸ hinum) ?_ ?_)
  · rwa [hsame.1]
  · rw [hsame.1]
    rcases hkept with hlink | ⟨e, he, heq⟩
    · exact Or.inl hlink
    · exact Or.inr ⟨e, he, by rw [hfirst.inum e he, heq]⟩

theorem trans_zero (hfirst : Fs.Looks h d fs fs')
    (hnext : Fs.Looks h 0 fs' fs'') : Fs.Looks h d fs fs'' := by
  have htrans := hfirst.trans hnext
  rwa [add_zero] at htrans

theorem mono (hlooks : Fs.Looks h d fs fs') (hle : ∀ e, h' e ≤ h e) : Fs.Looks h' d fs fs' := by
  have hpos : ∀ e, 0 < h' e → 0 < h e := fun e he => Int.lt_of_lt_of_le he (hle e)
  refine ⟨hlooks.toFollows.mono hpos, ?_⟩
  intro inum hinum htype hkept
  refine hlooks.kept inum hinum htype ?_
  rcases hkept with hlink | ⟨e, he, heq⟩
  · exact Or.inl hlink
  · exact Or.inr ⟨e, hpos e he, heq⟩

end Fs.Looks

/-- The directory entries of an inode name inodes of the disk. -/
def Fs.EntriesOk (fs : Fs) (inum : Nat) : Prop :=
  ∀ k, DIRENT * k + DIRENT ≤ (fs.dinode inum).size.toNat →
    direntInum (fun i => (fs.dinode inum).byte fs.disk (DIRENT * k + i)) < fs.sb.ninodes

theorem Fs.EntriesOk.of_same (hentries : fs.EntriesOk inum) (hsb : fs'.sb = fs.sb)
    (hsame : fs.SameFile fs' inum) : fs'.EntriesOk inum := by
  obtain ⟨hdinode, hbytes⟩ := hsame
  intro k hk
  rw [hdinode] at hk ⊢
  rw [hsb]
  have hread : direntInum (fun i =>
      (fs.dinode inum).byte fs'.disk (DIRENT * k + i)) =
      direntInum (fun i => (fs.dinode inum).byte fs.disk (DIRENT * k + i)) := by
    apply getLE_congr
    intro addr _ haddr
    apply hbytes
    simp only [DIRENT] at *
    omega
  rw [hread]
  exact hentries k hk

/-- One inode and the entries for it change; everything else follows. -/
theorem Fs.Ok.change (hok : fs.Ok) (target : Nat)
    (hsb : fs'.sb = fs.sb) (hsound : fs'.Sound fs'.dinode) (href : ∀ e, 0 ≤ (fs'.inode e).ref)
    (hentry : ∀ e, 0 < (fs'.inode e).ref → 0 < (fs.inode e).ref ∧
      (fs'.inode e).inum = (fs.inode e).inum)
    (hothers : ∀ e, 0 < (fs'.inode e).ref → (fs.inode e).inum ≠ target →
      (fs'.inode e).valid = true → (fs.inode e).valid = true ∧
        (fs'.inode e).copy = (fs.inode e).copy)
    (hself : ∀ e, 0 < (fs'.inode e).ref → (fs.inode e).inum = target →
      (fs'.inode e).valid = true → target < fs.sb.ninodes ∧
        (fs'.inode e).copy = fs'.dinode target ∧ (fs'.inode e).copy.type ≠ 0)
    (hdinode : ∀ inum, inum < fs.sb.ninodes → inum ≠ target → fs'.dinode inum = fs.dinode inum)
    (hbytes : ∀ inum, inum < fs.sb.ninodes → inum ≠ target →
      (fs.dinode inum).type ≠ 0 → fs.SameFile fs' inum)
    (hdir : (fs'.dinode target).type = T_DIR → fs'.EntriesOk target) : fs'.Ok := by
  refine ⟨hsound, hsb ▸ hok.root, href, ?_, ?_, ?_, ?_, ?_⟩
  · intro e e' he he' heq
    obtain ⟨hpos, hinum⟩ := hentry e he
    obtain ⟨hpos', hinum'⟩ := hentry e' he'
    rw [hinum, hinum'] at heq
    exact hok.unique e e' hpos hpos' heq
  · intro e he hv
    obtain ⟨hpos, hinum⟩ := hentry e he
    rw [hinum, hsb]
    by_cases heq : (fs.inode e).inum = target
    · exact heq ▸ (hself e he heq hv).1
    · exact hok.inum e hpos (hothers e he heq hv).1
  · intro e he hv
    obtain ⟨hpos, hinum⟩ := hentry e he
    rw [hinum]
    by_cases heq : (fs.inode e).inum = target
    · rw [heq]
      exact (hself e he heq hv).2.1
    · obtain ⟨hold, hcopy⟩ := hothers e he heq hv
      rw [hcopy, hok.sync e hpos hold, hdinode _ (hok.inum e hpos hold) heq]
  · intro e he hv
    obtain ⟨hpos, _⟩ := hentry e he
    by_cases heq : (fs.inode e).inum = target
    · exact (hself e he heq hv).2.2
    · obtain ⟨hold, hcopy⟩ := hothers e he heq hv
      rw [hcopy]
      exact hok.type e hpos hold
  · intro inum hlt htype
    rw [hsb] at hlt
    by_cases heq : inum = target
    · subst heq
      exact hdir htype
    · rw [hdinode inum hlt heq] at htype
      exact Fs.EntriesOk.of_same (hok.dirs inum hlt htype) hsb
        (hbytes inum hlt heq (by rw [htype]; decide))

/-- An entry may change as long as it follows the disk and stays the only one
for its inode. -/
theorem Fs.Ok.withInode {fs : Fs} (hok : fs.Ok) {ip : InodeRef} {change : Inode → Inode}
    (href : 0 ≤ (change (fs.inode ip)).ref) (honly : 0 < (change (fs.inode ip)).ref → ∀ e, e ≠ ip →
      0 < (fs.inode e).ref → (fs.inode e).inum ≠ (change (fs.inode ip)).inum)
    (hvalid : 0 < (change (fs.inode ip)).ref → (change (fs.inode ip)).valid = true →
      (change (fs.inode ip)).inum < fs.sb.ninodes ∧
      (change (fs.inode ip)).copy = fs.dinode (change (fs.inode ip)).inum ∧
      (change (fs.inode ip)).copy.type ≠ 0) : (fs.withInode ip change).Ok := by
  have hself := withInode_self fs ip change
  have hother := fun e (hne : e ≠ ip) => withInode_of_ne fs ip change hne
  refine ⟨hok.sound.withInode ip change, hok.root, ?_, ?_, ?_, ?_, ?_, hok.dirs⟩
  · intro e
    by_cases heq : e = ip
    · rw [heq, hself]
      exact href
    · rw [hother e heq]
      exact hok.ref e
  · intro e e' he he' hsame
    by_cases heq : e = ip
    · by_cases heq' : e' = ip
      · rw [heq, heq']
      · subst heq
        rw [hself] at he hsame
        rw [hother e' heq'] at he' hsame
        exact (honly he e' heq' he' hsame.symm).elim
    · by_cases heq' : e' = ip
      · subst heq'
        rw [hself] at he' hsame
        rw [hother e heq] at he hsame
        exact (honly he' e heq he hsame).elim
      · rw [hother e heq] at he hsame
        rw [hother e' heq'] at he' hsame
        exact hok.unique e e' he he' hsame
  all_goals
    intro e he hv
    by_cases heq : e = ip
    · subst heq
      rw [hself] at he hv ⊢
      first
        | exact (hvalid he hv).1
        | exact (hvalid he hv).2.1
        | exact (hvalid he hv).2.2
    · rw [hother e heq] at he hv ⊢
      first
        | exact hok.inum e he hv
        | exact hok.sync e he hv
        | exact hok.type e he hv

/-- An entry in use is the only one for its inode. -/
theorem Fs.Ok.only (hok : fs.Ok) (hpos : 0 < (fs.inode ip).ref) (e : InodeRef) (hne : e ≠ ip)
    (he : 0 < (fs.inode e).ref) : (fs.inode e).inum ≠ (fs.inode ip).inum :=
  fun heq => hne (hok.unique e ip he hpos heq)

/-- Such a change is a lookup. -/
theorem Fs.Ok.looks_withInode {change : Inode → Inode} (hok : (fs.withInode ip change).Ok)
    (h : InodeRef → Int) {d : InodeRef → Int}
    (href : (change (fs.inode ip)).ref = (fs.inode ip).ref + d ip) (hd : ∀ e, e ≠ ip → d e = 0)
    (hinum : 0 < h ip → (change (fs.inode ip)).inum = (fs.inode ip).inum)
    (hvalid : 0 < h ip → (fs.inode ip).valid = true → (change (fs.inode ip)).valid = true) :
    Fs.Looks h d fs (fs.withInode ip change) := by
  refine ⟨⟨hok, rfl, ?_, ?_, ?_, id⟩, fun inum _ _ _ => .refl fs inum⟩
  · intro e
    by_cases heq : e = ip
    · rw [heq, withInode_self, href]
    · rw [withInode_of_ne _ _ _ heq, hd e heq, Int.add_zero]
  · intro e he
    by_cases heq : e = ip
    · subst heq
      rw [withInode_self, hinum he]
    · rw [withInode_of_ne _ _ _ heq]
  · intro e he hv
    by_cases heq : e = ip
    · subst heq
      rw [withInode_self, hvalid he hv]
    · rwa [withInode_of_ne _ _ _ heq]

/-- The two ways `iget` finds an entry. -/
theorem iget_cases (hrun : iget inum fs = .ok (ip, fs')) :
    (0 < (fs.inode ip).ref ∧ (fs.inode ip).inum = inum ∧ fs' = fs.withInode ip (fun inode =>
        { inode with ref := inode.ref + 1 })) ∨ ((fs.inode ip).ref = 0 ∧
      (∀ e, 0 < (fs.inode e).ref → (fs.inode e).inum ≠ inum) ∧ fs' = fs.withInode ip (fun inode =>
        { inode with inum := inum, ref := 1, valid := false })) := by
  unfold iget at hrun
  rw [read_bind] at hrun
  cases hfound : (List.finRange NINODE).find? (fun e =>
      decide (0 < (fs.inode e).ref ∧ (fs.inode e).inum = inum)) with
  | some e =>
    rw [hfound] at hrun
    cases hrun
    have hpos := List.find?_some hfound
    rw [decide_eq_true_eq] at hpos
    exact Or.inl ⟨hpos.1, hpos.2, rfl⟩
  | none =>
    rw [hfound] at hrun
    cases hempty : (List.finRange NINODE).find? (fun e =>
        decide ((fs.inode e).ref = 0)) with
    | none =>
      simp only [hempty] at hrun
      cases hrun
    | some e =>
      simp only [hempty] at hrun
      cases hrun
      have hzero := List.find?_some hempty
      rw [decide_eq_true_eq] at hzero
      refine Or.inr ⟨hzero, ?_, rfl⟩
      intro e he heq
      have hnot := List.find?_eq_none.mp hfound e (List.mem_finRange e)
      exact hnot (decide_eq_true ⟨he, heq⟩)

/-- The reference that `iget` returns. -/
theorem iget_self (hrun : iget inum fs = .ok (ip, fs')) :
    (fs'.inode ip).inum = inum ∧ (fs'.inode ip).ref = (fs.inode ip).ref + 1 ∧
      0 ≤ (fs.inode ip).ref := by
  rcases iget_cases hrun with ⟨hpos, heq, rfl⟩ | ⟨hzero, _, rfl⟩
  · rw [withInode_self]
    exact ⟨heq, rfl, Int.le_of_lt hpos⟩
  · rw [withInode_self]
    exact ⟨rfl, by rw [hzero]; rfl, by rw [hzero]⟩

/-- One more reference to an inode in use. -/
theorem Fs.Ok.looks_ref (hok : fs.Ok) (hpos : 0 < (fs.inode ip).ref) (h : InodeRef → Int) :
    Fs.Looks h (one ip) fs (fs.withInode ip fun inode => { inode with ref := inode.ref + 1 }) := by
  refine Fs.Ok.looks_withInode ?_ h ?_ (fun e hne => one_of_ne hne) (fun _ => rfl) (fun _ hv => hv)
  · refine hok.withInode ?_ (fun _ => hok.only hpos) ?_
    · exact Int.add_nonneg (Int.le_of_lt hpos) (by decide)
    · intro _ hv
      exact ⟨hok.inum ip hpos hv, hok.sync ip hpos hv, hok.type ip hpos hv⟩
  · rw [one_self]

theorem iget_looks (hok : fs.Ok) {h : InodeRef → Int} (hheld : fs.Held h)
    (hrun : iget inum fs = .ok (ip, fs')) : Fs.Looks h (one ip) fs fs' := by
  rcases iget_cases hrun with ⟨hpos, heq, rfl⟩ | ⟨hzero, hnone, rfl⟩
  · exact hok.looks_ref hpos h
  · have hnot : ¬ 0 < h ip := by
      have hle := hheld ip
      omega
    refine Fs.Ok.looks_withInode ?_ h ?_ (fun e hne => one_of_ne hne)
      (fun he => (hnot he).elim) (fun he => (hnot he).elim)
    · exact hok.withInode (Int.zero_le_ofNat 1)
        (fun _ e _ he => hnone e he) (fun _ hv => by cases hv)
    · rw [one_self, hzero]
      rfl

theorem wlp_idup (hok : fs.Ok) (hpos : 0 < (fs.inode ip).ref) (h : InodeRef → Int) :
    wlp (idup ip) fs (fun ip' fs' => ip' = ip ∧ Fs.Looks h (one ip) fs fs' ∧
      (fs'.inode ip).inum = (fs.inode ip).inum ∧ fs'.locks = fs.locks) := by
  unfold idup
  rw [wlp_bind, wlp_setInode, wlp_pure]
  exact ⟨rfl, hok.looks_ref hpos h, by rw [withInode_self], withInode_locks _ rfl⟩

/-- The state after `ilock`. -/
def Fs.lockInode (fs : Fs) (ip : InodeRef) : Fs :=
  fs.withInode ip (fun inode => { inode with
    locked := true, valid := true, copy := fs.dinode inode.inum })

def Fs.unlockInode (fs : Fs) (ip : InodeRef) : Fs :=
  fs.withInode ip (fun inode => { inode with locked := false })

theorem wlp_ilock (hok : fs.Ok) (ip : InodeRef) :
    wlp (ilock ip) fs (fun _ fs' => fs' = fs.lockInode ip ∧
      0 < (fs.inode ip).ref ∧ (fs.inode ip).locked = false ∧
      (fs.dinode (fs.inode ip).inum).type ≠ 0) := by
  unfold ilock acquireSleep
  simp only [wlp_bind, wlp_read, wlp_ite, wlp_panic, wlp_stop, wlp_setInode, wlp_pure]
  split
  · trivial
  rename_i href
  split
  · trivial
  rename_i hunlocked
  have hpos : 0 < (fs.inode ip).ref := by omega
  rw [Bool.not_eq_true] at hunlocked
  split
  next hvalid =>
    have hsync := hok.sync ip hpos hvalid
    have htype := hok.type ip hpos hvalid
    refine ⟨?_, hpos, hunlocked, hsync ▸ htype⟩
    rw [Fs.lockInode, Fs.withInode, Fs.withInode, ← hsync, hvalid]
  · split
    · trivial
    next htype =>
      refine ⟨?_, hpos, hunlocked, htype⟩
      simp [Fs.lockInode, Fs.withInode]

theorem wlp_iunlock (ip : InodeRef) : wlp (iunlock ip) fs (fun _ fs' => fs' = fs.unlockInode ip ∧
      0 < (fs.inode ip).ref ∧ (fs.inode ip).locked = true) := by
  unfold iunlock releaseSleep
  simp only [wlp_bind, wlp_read, wlp_ite, wlp_panic, wlp_setInode]
  split
  · trivial
  next hheld =>
    rw [not_or, Bool.not_eq_false] at hheld
    exact ⟨rfl, by omega, hheld.1⟩

@[simp] theorem lockInode_locks (fs : Fs) (ip : InodeRef) :
    (fs.lockInode ip).locks = Function.update fs.locks ip true := by
  funext e
  by_cases heq : e = ip
  · simp [Fs.locks, Fs.lockInode, heq]
  · simp [Fs.locks, Fs.lockInode, withInode_of_ne _ _ _ heq, Function.update_of_ne heq]

@[simp] theorem unlockInode_locks (fs : Fs) (ip : InodeRef) :
    (fs.unlockInode ip).locks = Function.update fs.locks ip false := by
  funext e
  by_cases heq : e = ip
  · simp [Fs.locks, Fs.unlockInode, heq]
  · simp [Fs.locks, Fs.unlockInode, withInode_of_ne _ _ _ heq, Function.update_of_ne heq]

theorem Fs.Ok.lockInode (hok : fs.Ok) (hpos : 0 < (fs.inode ip).ref)
    (hinum : (fs.inode ip).inum < fs.sb.ninodes)
    (htype : (fs.dinode (fs.inode ip).inum).type ≠ 0) : (fs.lockInode ip).Ok :=
  hok.withInode (hok.ref ip) (fun _ => hok.only hpos) (fun _ _ => ⟨hinum, rfl, htype⟩)

theorem Fs.Ok.unlockInode (hok : fs.Ok) (hpos : 0 < (fs.inode ip).ref) : (fs.unlockInode ip).Ok :=
  hok.withInode (hok.ref ip) (fun _ => hok.only hpos)
    (fun _ hv => ⟨hok.inum ip hpos hv, hok.sync ip hpos hv, hok.type ip hpos hv⟩)

theorem looks_lockInode (hok : (fs.lockInode ip).Ok) (h : InodeRef → Int) :
    Fs.Looks h 0 fs (fs.lockInode ip) :=
  hok.looks_withInode h (Int.add_zero _).symm (fun _ _ => rfl) (fun _ => rfl) (fun _ _ => rfl)

theorem looks_unlockInode (hok : (fs.unlockInode ip).Ok) (h : InodeRef → Int) :
    Fs.Looks h 0 fs (fs.unlockInode ip) :=
  hok.looks_withInode h (Int.add_zero _).symm (fun _ _ => rfl) (fun _ => rfl) (fun _ hv => hv)

end CkptKernel
