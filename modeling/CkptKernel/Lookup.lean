/-
Path names: `dirlookup` and `namex` only look.  Whatever they pass on the way,
an inode that is linked or held keeps its contents, and the reference they
return is the only one they leave behind.  While every inode without links is
held by somebody, a lookup frees nothing on its way: it leaves disk and log as
they are, and finds what the tree of names has.
-/
import CkptKernel.DiskView

namespace CkptKernel

open ByteMem Code

section Iget

variable {fs fs' : Fs} {ip : InodeRef} {inum : Nat}

variable (hrun : iget inum fs = .ok (ip, fs'))
include hrun

theorem iget_locks : fs'.locks = fs.locks := by
  rcases iget_cases hrun with ⟨_, _, rfl⟩ | ⟨_, _, rfl⟩
  · exact withInode_locks _ rfl
  · exact withInode_locks _ rfl

theorem iget_disk : fs'.disk = fs.disk ∧ fs'.sb = fs.sb ∧ fs'.log = fs.log := by
  rcases iget_cases hrun with ⟨_, _, rfl⟩ | ⟨_, _, rfl⟩
  · exact ⟨rfl, rfl, rfl⟩
  · exact ⟨rfl, rfl, rfl⟩

theorem iget_dinode : fs'.dinode = fs.dinode := by
  obtain ⟨hdisk, hsb, _⟩ := iget_disk hrun
  funext other
  rw [Fs.dinode, Fs.dinode, hdisk, hsb]

end Iget

structure Fs.Still (fs fs' : Fs) : Prop where
  disk : fs'.disk = fs.disk
  sb : fs'.sb = fs.sb
  log : fs'.log = fs.log

namespace Fs.Still

variable {fs fs' fs'' : Fs}

theorem trans (hfirst : Fs.Still fs fs') (hnext : Fs.Still fs' fs'') : Fs.Still fs fs'' :=
  ⟨hnext.disk.trans hfirst.disk, hnext.sb.trans hfirst.sb, hnext.log.trans hfirst.log⟩

theorem view (hstill : Fs.Still fs fs') : fs'.view = fs.view :=
  view_of_disk hstill.disk hstill.sb

theorem withInode (fs : Fs) (ip : InodeRef) (change : Inode → Inode) :
    Fs.Still fs (fs.withInode ip change) := ⟨rfl, rfl, rfl⟩

theorem iget {inum : Nat} {ip : InodeRef}
    (hrun : CkptKernel.iget inum fs = .ok (ip, fs')) : Fs.Still fs fs' := by
  obtain ⟨hdisk, hsb, hlog⟩ := iget_disk hrun
  exact ⟨hdisk, hsb, hlog⟩

end Fs.Still

/-- The inodes without links in `v` are in memory and among the references
`h`. -/
def Fs.Covers (h : InodeRef → Int) (v : View) (fs : Fs) : Prop :=
  ∀ x, (v x).kind ≠ 0 → (v x).links = 0 →
    ∃ e, 0 < h e ∧ (fs.inode e).inum = x ∧ (fs.inode e).valid = true

/-- Every inode without links is in memory and among the references `h`. -/
def Fs.Shelters (h : InodeRef → Int) (fs : Fs) : Prop := fs.Covers h fs.view

section Release

variable {h d : InodeRef → Int} {fs fs' : Fs} {ip : InodeRef}
  {stops : Stop → Prop}

theorem le_add_one (h : InodeRef → Int) (ip e : InodeRef) : h e ≤ (h + one ip) e := by
  have hnn := one_nonneg ip e
  simp only [Pi.add_apply]
  omega

theorem Fs.Held.pos (hheld : fs.Held (h + one ip)) (hnn : ∀ e, 0 ≤ h e) :
    0 < (fs.inode ip).ref := by
  have hle := hheld ip
  have hip := hnn ip
  simp only [Pi.add_apply, one_self] at hle
  omega

theorem add_one_pos (hnn : ∀ e, 0 ≤ h e) (e : InodeRef) : 0 < (h + one e) e := by
  have hle := hnn e
  simp only [Pi.add_apply, one_self]
  omega

/-- The reference taken is given back. -/
theorem Fs.Looks.give_back {fs'' : Fs} (htake : Fs.Looks h (one ip) fs fs')
    (hput : Fs.Looks h (-one ip) fs' fs'') : Fs.Looks h 0 fs fs'' := by
  have htrans := htake.trans hput
  rwa [add_neg_cancel] at htrans

theorem Fs.Looks.held_back {c d : InodeRef → Int}
    (hlooks : Fs.Looks h (-d) fs fs') (hheld : fs.Held (c + d)) : fs'.Held c := by
  have hback := hlooks.held hheld
  rwa [add_neg_cancel_right] at hback

theorem Fs.Shelters.mono {h' : InodeRef → Int} (hshel : fs.Shelters h)
    (hle : ∀ e, h e ≤ h' e) : fs.Shelters h' := by
  intro x hkind hlinks
  obtain ⟨e, he, hinum, hvalid⟩ := hshel x hkind hlinks
  exact ⟨e, Int.lt_of_lt_of_le he (hle e), hinum, hvalid⟩

/-- Held inodes stay where they are, so they go on sheltering. -/
theorem Fs.Shelters.looks (hshel : fs.Shelters h)
    (hlooks : Fs.Looks h d fs fs') (hview : fs'.view = fs.view) : fs'.Shelters h := by
  intro x hkind hlinks
  rw [hview] at hkind hlinks
  obtain ⟨e, he, hinum, hvalid⟩ := hshel x hkind hlinks
  exact ⟨e, he, by rw [hlooks.inum e he, hinum], hlooks.valid e he hvalid⟩

/-- Somebody else holds whatever could be freed. -/
theorem Fs.Shelters.not_doomed (hshel : fs.Shelters h) (hok : fs.Ok)
    (hheld : fs.Held (h + one ip)) : ¬(fs.inode ip).Doomed := by
  rintro ⟨hone, hvalid, hlinks⟩
  have hpos : 0 < (fs.inode ip).ref := by omega
  have hinum := hok.inum ip hpos hvalid
  have htype := hok.type ip hpos hvalid
  rw [hok.sync ip hpos hvalid] at htype hlinks
  obtain ⟨e, he, heq, _⟩ := hshel (fs.inode ip).inum (by rw [view_kind hinum]; exact htype)
    (by rw [view_of_lt hinum, Dinode.node_links htype]; exact hlinks)
  have hle := hheld e
  have hnn := one_nonneg ip e
  simp only [Pi.add_apply] at hle
  have hip := hok.unique e ip (by omega) hpos heq
  subst hip
  rw [one_self] at hle
  omega

/-- What happens where an inode has to be freed: code stops, or nothing is. -/
def Fs.MayFree (stops : Stop → Prop) (h : InodeRef → Int) (fs : Fs) : Prop :=
  (∀ reason, Lawful reason → stops reason) ∨ fs.Shelters h

theorem ends_iput_free (hok : fs.Ok) (hheld : fs.Held (h + one ip)) (hpos : 0 < (fs.inode ip).ref)
    (hfree : fs.MayFree stops h) : ends (iput ip) fs (fun _ fs' => (Fs.Looks h (-one ip) fs fs' ∧
      fs'.locks = fs.locks) ∧ (fs.Shelters h → Fs.Still fs fs')) stops := by
  have hstill : ∀ {stops : Stop → Prop}, fs.Shelters h →
      ends (iput ip) fs (fun _ fs' => Fs.Still fs fs') stops := by
    intro stops hshel
    have hkept := hshel.not_doomed hok hheld
    unfold Inode.Doomed at hkept
    unfold iput
    rw [ends_bind, ends_read]
    dsimp only
    rw [ends_bind, Code.when, if_neg hkept, ends_pure, ends_setInode]
    exact .withInode fs ip _
  have hlooks := ends_iput_looks hok hheld hpos
  have hknown := wlp_and (wlp_of_ends hlooks) fun value fs' hrun
    (hshel : fs.Shelters h) => wlp_of_ends (@hstill Lawful hshel) value fs' hrun
  rcases hfree with hall | hshel
  · exact ends_mono (ends_and (ends_imp hlooks (fun _ _ hpost => hpost) hall)
      hknown) fun _ _ hpost => hpost.1
  · exact ends_mono (ends_and (hstill hshel) hknown) fun _ _ hpost => hpost.1

/-- `iunlock` stops only for those who do not have the lock. -/
theorem ends_iunlock_of
    (hstop : (fs.inode ip).locked = false ∨ (fs.inode ip).ref < 1 → stops (.panic "iunlock")) :
    ends (iunlock ip) fs (fun _ fs' => fs' = fs.unlockInode ip ∧ 0 < (fs.inode ip).ref) stops := by
  unfold iunlock releaseSleep
  rw [ends_bind, ends_read, ends_ite]
  split
  next hbad =>
    exact hstop hbad
  next hgood =>
    rw [not_or] at hgood
    exact ⟨rfl, by omega⟩

theorem ends_iunlockput_free (hok : fs.Ok) (hheld : fs.Held (h + one ip))
    (hfree : fs.MayFree stops h)
    (hstop : (fs.inode ip).locked = false ∨ (fs.inode ip).ref < 1 → stops (.panic "iunlock")) :
    ends (iunlockput ip) fs (fun _ fs' => (Fs.Looks h (-one ip) fs fs' ∧
      fs'.locks = Function.update fs.locks ip false) ∧
      (fs.Shelters h → Fs.Still fs fs')) stops := by
  unfold iunlockput
  refine ends_seq (ends_iunlock_of hstop) ?_
  rintro _ fs₁ ⟨rfl, hpos⟩
  have hok₁ := hok.unlockInode hpos
  have hlooks := looks_unlockInode hok₁ h
  have hheld₁ := (looks_unlockInode hok₁ (h + one ip)).held_zero hheld
  have hstill : Fs.Still fs (fs.unlockInode ip) := .withInode fs ip _
  have hshel₁ := fun hshel : fs.Shelters h => hshel.looks hlooks hstill.view
  have hpos₁ : 0 < ((fs.unlockInode ip).inode ip).ref := by
    rw [hlooks.ref, Pi.zero_apply, Int.add_zero]
    exact hpos
  refine ends_mono (ends_iput_free hok₁ hheld₁ hpos₁ (hfree.imp id hshel₁)) ?_
  rintro _ fs₂ ⟨⟨hput, hlocks⟩, hrest⟩
  have htrans := hlooks.trans hput
  rw [zero_add] at htrans
  exact ⟨⟨htrans, by rw [hlocks, unlockInode_locks]⟩,
    fun hshel => hstill.trans (hrest (hshel₁ hshel))⟩

theorem ends_iunlockput (hok : fs.Ok) (hheld : fs.Held (h + one ip)) :
    ends (iunlockput ip) fs (fun _ fs' => Fs.Looks h (-one ip) fs fs' ∧
      fs'.locks = Function.update fs.locks ip false) Lawful :=
  ends_mono (ends_iunlockput_free hok hheld (Or.inl fun _ hreason => hreason)
    fun _ => lawful_panic (by decide)) fun _ _ hpost => hpost.1

/-- What `ilock` does. -/
structure Fs.Locked (h : InodeRef → Int) (ip : InodeRef) (fs fs' : Fs) : Prop where
  looks : Fs.Looks h 0 fs fs'
  loaded : fs'.Loaded ip
  inum : (fs'.inode ip).inum = (fs.inode ip).inum
  others : ∀ e, fs.Loaded e → fs'.Loaded e
  locks : fs'.locks = Function.update fs.locks ip true
  free : fs.locks ip = false
  type : (fs.dinode (fs.inode ip).inum).type ≠ 0

/-- Once the lock is given back, all locks are as before. -/
theorem Fs.Locked.locks_back (hlock : Fs.Locked h ip fs fs') :
    Function.update fs'.locks ip false = fs.locks := by
  rw [hlock.locks, Function.update_idem, ← hlock.free]
  exact Function.update_eq_self ip fs.locks

/-- `ilock` stops for want of a reference, for the lock, or at a free inode. -/
theorem ends_ilock_of (hok : fs.Ok) (hinum : (fs.inode ip).inum < fs.sb.ninodes)
    (h : InodeRef → Int) (href : (fs.inode ip).ref < 1 → stops (.panic "ilock"))
    (hsleep : (fs.inode ip).locked = true → stops .sleep)
    (htype : (fs.dinode (fs.inode ip).inum).type = 0 → stops (.panic "ilock: no type")) :
    ends (ilock ip) fs (fun _ fs' => fs' = fs.lockInode ip ∧ Fs.Locked h ip fs fs') stops := by
  have hstops : ends (ilock ip) fs (fun _ _ => True) stops := by
    unfold ilock acquireSleep
    simp only [ends_bind, ends_read, ends_ite, ends_panic, ends_stop, ends_setInode, ends_pure]
    split
    next hfree =>
      exact href hfree
    split
    next hlocked =>
      exact hsleep hlocked
    split
    · trivial
    · split
      next hzero =>
        exact htype hzero
      · trivial
  refine ends_mono (ends_and hstops (wlp_ilock hok ip)) ?_
  rintro _ fs' ⟨⟨rfl, hpos, hunlocked, halloc⟩, _⟩
  have hself : (fs.lockInode ip).inode ip = { fs.inode ip with
      locked := true, valid := true, copy := fs.dinode (fs.inode ip).inum } := withInode_self _ _ _
  have hloaded : (fs.lockInode ip).Loaded ip :=
    ⟨by rw [hself]; exact hpos, by rw [hself]⟩
  refine ⟨rfl, looks_lockInode (hok.lockInode hpos hinum halloc) h, hloaded,
    by rw [hself], ?_, lockInode_locks fs ip, hunlocked, halloc⟩
  intro e he
  by_cases heq : e = ip
  · exact heq ▸ hloaded
  · have hother : (fs.lockInode ip).inode e = fs.inode e :=
      withInode_of_ne _ _ _ heq
    exact ⟨hother ▸ he.ref, hother ▸ he.valid⟩

theorem ends_ilock (hok : fs.Ok) (hinum : (fs.inode ip).inum < fs.sb.ninodes) (h : InodeRef → Int) :
    ends (ilock ip) fs (fun _ fs' => Fs.Locked h ip fs fs') Lawful :=
  ends_mono (ends_ilock_of hok hinum h (fun _ => lawful_panic (by decide))
    (fun _ => lawful_sleep) fun _ => lawful_panic (by decide))
    fun _ _ hpost => hpost.2

/-- `iget` stops only when the table is full. -/
theorem ends_iget_of (inum : Nat)
    (hfull : (∀ e, (fs.inode e).ref ≠ 0) → stops (.panic "iget: no inodes")) :
    ends (iget inum) fs (fun ip fs' => iget inum fs = .ok (ip, fs')) stops := by
  have hstops : ends (iget inum) fs (fun _ _ => True) stops := by
    unfold iget
    rw [ends_bind, ends_read]
    split
    · trivial
    split
    · trivial
    next hnone =>
      refine hfull fun e hzero => ?_
      have hnot := List.find?_eq_none.mp hnone e (List.mem_finRange e)
      exact hnot (decide_eq_true hzero)
  exact ends_mono (ends_and hstops fun _ _ hrun => hrun) fun _ _ hpost =>
    hpost.1

end Release

section Lookup

variable {fs fs' : Fs} {dp ip : InodeRef} {h : InodeRef → Int}
  {stops : Stop → Prop}

/-- An entry is read, or the directory ends inside it. -/
theorem ends_readDirent (hfull : (fs.inode dp).copy.Full fs.disk) (off : Nat) {message : String}
    (hstop : (fs.inode dp).copy.size.toNat < off + DIRENT → stops (.panic message)) :
    ends (readDirent dp off message) fs (fun de fs' => fs' = fs ∧
      off + DIRENT ≤ (fs.inode dp).copy.size.toNat ∧
      ∀ i, i < DIRENT → de i = (fs.inode dp).copy.byte fs.disk (off + i)) stops := by
  have hsize := (fs.inode dp).copy.size.toNat_lt
  unfold readDirent
  rw [ends_bind, ends, readi_kernel hfull]
  dsimp only
  rw [ends_ite]
  split
  next hcount =>
    have hread : (fs.inode dp).copy.readable off DIRENT = DIRENT :=
      Option.some.inj hcount
    rw [ends_pure]
    refine ⟨rfl, ?_, ?_⟩
    · unfold Dinode.readable at hread
      split at hread
      · cases hread
      · simp only [DIRENT] at *
        omega
    · intro i hi
      rw [hread, blit_inside _ _ (Nat.zero_le i) (by omega), Nat.sub_zero]
  next hshort =>
    refine hstop (Nat.lt_of_not_le fun hfits => hshort ?_)
    rw [Dinode.readable, if_neg]
    · rw [Nat.min_eq_left (by omega)]
    · simp only [DIRENT] at *
      omega

/-- What `dirlookup` looks for. -/
def Entry.Matches (name : Name) (e : Entry) : Bool :=
  decide (e.inum ≠ 0 ∧ e.name = cname name)

theorem matches_iff {name : Name} {de : Bytes} : (entryOf de).Matches name = true ↔
      direntInum de ≠ 0 ∧ namecmp name (direntName de) := by
  unfold Entry.Matches entryOf namecmp
  rw [decide_eq_true_eq]
  split
  next hzero =>
    simp [Entry.empty, hzero]
  next hne =>
    simp only [ne_eq, hne, not_false_eq_true, true_and]
    exact eq_comm

/-- What a lookup in a directory finds: nothing, or a reference to the inode of
the first entry with the name. -/
def Fs.LooksUp (fs : Fs) (d : Nat) (name : Name)
    (found : Option (InodeRef × Nat)) (fs' : Fs) : Prop :=
  (found = none ∧ fs' = fs ∧ fs.view.lookup d name = none) ∨
    ∃ ip k e, found = some (ip, DIRENT * k) ∧ fs.view.lookup d name = some e ∧
      iget e.inum fs = .ok (ip, fs')

/-- A directory whose contents can be read. -/
structure Fs.Readable (fs : Fs) (dp : InodeRef) (d : Nat) : Prop where
  node : fs.view d = (fs.inode dp).copy.node fs.disk
  full : (fs.inode dp).copy.Full fs.disk

theorem Fs.Ok.readable (hok : fs.Ok) (hloaded : fs.Loaded dp) : fs.Readable dp (fs.inode dp).inum :=
  ⟨hok.view_node hloaded, hok.full hloaded⟩

variable (hwhole : ¬DIRENT ∣ (fs.inode dp).copy.size.toNat → stops (.panic "dirlookup read"))
  (hroom : (∀ e, (fs.inode e).ref ≠ 0) → stops (.panic "iget: no inodes"))
include hwhole hroom

theorem ends_dirlookupFrom {d : Nat} (hread : fs.Readable dp d)
    (hdir : (fs.inode dp).copy.type = T_DIR) (name : Name)
    (fuel k : Nat) (hfuel : (fs.inode dp).copy.size.toNat < DIRENT * k + fuel) :
    ends (dirlookupFrom dp name fuel (DIRENT * k)) fs (fun found fs' =>
      (found = none ∧ fs' = fs ∧ ((fs.view d).entries.drop k).find? (·.Matches name) = none) ∨
      ∃ ip j e, found = some (ip, DIRENT * j) ∧
        ((fs.view d).entries.drop k).find? (·.Matches name) = some e ∧
        iget e.inum fs = .ok (ip, fs')) stops := by
  rw [hread.node]
  induction fuel generalizing k with
  | zero =>
    refine (ends_pure none).mpr (Or.inl ⟨rfl, rfl, ?_⟩)
    rw [Dinode.node_end hdir (by omega)]
    rfl
  | succ fuel ih =>
    unfold dirlookupFrom
    rw [ends_bind, ends_read, ends_ite]
    split
    next hmore =>
      refine ends_seq (ends_readDirent hread.full _ fun hshort =>
        hwhole ?_) ?_
      · -- a directory of whole entries does not end inside one
        rintro ⟨m, hm⟩
        simp only [DIRENT] at *
        omega
      rintro de fs' ⟨rfl, hfits, hbytes⟩
      have hentry : (fs'.inode dp).copy.entryAt fs'.disk k = entryOf de :=
        entryOf_congr fun i hi => (hbytes i hi).symm
      have hmatch := @matches_iff name de
      rw [Dinode.node_drop hdir hfits, hentry, ends_ite]
      split
      next hfound =>
        refine ends_seq (ends_iget_of _ hroom) fun ip fs₁ hrun => ?_
        rw [ends_pure]
        refine Or.inr ⟨ip, k, entryOf de, rfl, List.find?_cons_of_pos (hmatch.mpr hfound), ?_⟩
        rw [entryOf_inum]
        exact hrun
      next hnot =>
        rw [List.find?_cons_of_neg (fun heq => hnot (hmatch.mp heq))]
        exact ih (k + 1) (by simp only [DIRENT] at *; omega)
    next hend =>
      refine (ends_pure none).mpr (Or.inl ⟨rfl, rfl, ?_⟩)
      rw [Dinode.node_end hdir (by omega)]
      rfl

/-- A lookup stops where the directory is none, ends inside an entry, or leads
to an inode that the table has no room for. -/
theorem ends_dirlookup_of {d : Nat} (hread : fs.Readable dp d)
    (hdir : (fs.inode dp).copy.type ≠ T_DIR → stops (.panic "dirlookup not DIR"))
    (name : Name) : ends (dirlookup dp name) fs (fun found fs' =>
      (fs.inode dp).copy.type = T_DIR ∧ fs.LooksUp d name found fs') stops := by
  unfold dirlookup
  rw [ends_bind, ends_read, ends_ite]
  split
  next hnot =>
    rw [ends_panic]
    exact hdir hnot
  next hkind =>
    rw [not_not] at hkind
    exact ends_mono (ends_dirlookupFrom hwhole hroom hread hkind name _ 0
      (by omega)) fun _ _ hpost => ⟨hkind, hpost⟩

/-- What `dirlookup` finds: a reference to an inode of the disk and the place
of its entry. -/
structure Fs.Found (h : InodeRef → Int) (name : Name) (dp ip : InodeRef)
    (off : Nat) (fs fs' : Fs) : Prop where
  looks : Fs.Looks h (one ip) fs fs'
  locks : fs'.locks = fs.locks
  still : Fs.Still fs fs'
  aligned : ∃ k, off = DIRENT * k
  inum : (fs'.inode ip).inum < fs.sb.ninodes
  entry : ∃ e, fs.view.lookup (fs.inode dp).inum name = some e ∧ (fs'.inode ip).inum = e.inum

/-- The two ways `dirlookup` can end. -/
def Fs.Searched (h : InodeRef → Int) (name : Name) (dp : InodeRef)
    (found : Option (InodeRef × Nat)) (fs fs' : Fs) : Prop :=
  (fs.inode dp).copy.type = T_DIR ∧
    ((found = none ∧ fs' = fs ∧ fs.view.lookup (fs.inode dp).inum name = none) ∨
      ∃ ip off, found = some (ip, off) ∧ Fs.Found h name dp ip off fs fs')

theorem ends_dirlookup_found (hok : fs.Ok) (hheld : fs.Held h) (hloaded : fs.Loaded dp)
    (hdir : (fs.inode dp).copy.type ≠ T_DIR → stops (.panic "dirlookup not DIR")) (name : Name) :
    ends (dirlookup dp name) fs (fun found => Fs.Searched h name dp found fs) stops := by
  refine ends_mono (ends_dirlookup_of hwhole hroom (hok.readable hloaded) hdir name) ?_
  rintro found fs' ⟨htype, hnone | ⟨ip, k, e, rfl, hsome, hrun⟩⟩
  · exact ⟨htype, Or.inl hnone⟩
  have hinum := (iget_self hrun).1
  refine ⟨htype, Or.inr ⟨ip, _, rfl, iget_looks hok hheld hrun,
    iget_locks hrun, .iget hrun, ⟨k, rfl⟩, ?_, e, hsome, hinum⟩⟩
  rw [hinum]
  exact hok.entry_lt hloaded htype (List.mem_of_find?_eq_some hsome)

omit hwhole hroom in
theorem ends_dirlookup (hok : fs.Ok) (hheld : fs.Held h) (hloaded : fs.Loaded dp) (name : Name) :
    ends (dirlookup dp name) fs (fun found => Fs.Searched h name dp found fs) Lawful :=
  ends_dirlookup_found (fun _ => lawful_panic (by decide)) (fun _ => lawful_panic (by decide))
    hok hheld hloaded (fun _ => lawful_panic (by decide)) name

end Lookup

def Fs.Whole (fs : Fs) : Prop :=
  ∀ x, x < fs.sb.ninodes → (fs.dinode x).type = T_DIR → DIRENT ∣ (fs.dinode x).size.toNat

/-- What a successful path lookup leaves: one reference. -/
structure Fs.Named (h : InodeRef → Int) (ip : InodeRef) (fs fs' : Fs) : Prop where
  looks : Fs.Looks h (one ip) fs fs'
  locks : fs'.locks = fs.locks
  inum : (fs'.inode ip).inum < fs.sb.ninodes

/-- A path lookup that found nothing. -/
structure Fs.Missed (h : InodeRef → Int) (fs fs' : Fs) : Prop where
  looks : Fs.Looks h 0 fs fs'
  locks : fs'.locks = fs.locks

/-- The references after a lookup that began in `fs`. -/
def Fs.Leads (h : InodeRef → Int) (found : Option (InodeRef × Name))
    (fs fs' : Fs) : Prop :=
  (found = none ∧ Fs.Missed h fs fs') ∨ ∃ ip name, found = some (ip, name) ∧ Fs.Named h ip fs fs'

/-- The inode numbers of a lookup that found what `expected` says. -/
def Fs.Agrees (expected : Option (Nat × Name))
    (found : Option (InodeRef × Name)) (fs fs' : Fs) : Prop :=
  Fs.Still fs fs' ∧ found.map (fun result =>
    ((fs'.inode result.1).inum, result.2)) = expected

/-- A walk that begins in `fs`, with references `h` beside its own: each reason
it may have to stop is among `stops` or does not come up. -/
structure Fs.Walks (stops : Stop → Prop) (h : InodeRef → Int) (fs : Fs) : Prop where
  idle : stops .sleep ∨ ∀ e, fs.locks e = false
  typed : stops (.panic "ilock: no type") ∨
    (fs.Shelters h ∧ fs.view.Closed ∧ (fs.view ROOTINO).kind ≠ 0)
  whole : stops (.panic "dirlookup read") ∨ (fs.Shelters h ∧ fs.Whole)
  /-- Besides the directory it holds, the walk takes one entry. -/
  room : stops (.panic "iget: no inodes") ∨
    ((∀ e, (fs.inode e).ref = h e) ∧ ∀ e, ∃ e', e' ≠ e ∧ h e' = 0)
  free : fs.MayFree stops h

/-- Every path element is at least one character long. -/
theorem skipelem_length {path name rest : Name} (hskip : skipelem path = some (name, rest)) :
    rest.length < path.length := by
  unfold skipelem at hskip
  dsimp only at hskip
  split at hskip
  · cases hskip
  rename_i hne
  cases hskip
  obtain ⟨c, tail, hpath⟩ := List.exists_cons_of_ne_nil hne
  have hle : (path.dropWhile (· = slash)).length ≤ path.length :=
    (List.dropWhile_suffix _).length_le
  have hc : c ≠ slash := by
    intro heq
    have hhead := List.head_dropWhile_not (fun x => decide (x = slash)) hne
    simp only [hpath, List.head_cons, heq, decide_true] at hhead
    cases hhead
  have hdrop : (path.dropWhile (· = slash)).dropWhile (· ≠ slash) = tail.dropWhile (· ≠ slash) := by
    rw [hpath, List.dropWhile_cons_of_pos (by simp [hc])]
  rw [hdrop]
  have hrest := (List.dropWhile_suffix (fun x => decide (x = slash))
    (l := tail.dropWhile (· ≠ slash))).length_le
  have htail := (List.dropWhile_suffix (fun x => decide (x ≠ slash)) (l := tail)).length_le
  rw [hpath, List.length_cons] at hle
  omega

section Walk

variable {h : InodeRef → Int} {stops : Stop → Prop} {fs₀ fs fs' : Fs}
  {ip : InodeRef}

theorem Fs.Walks.lawful (h : InodeRef → Int) (fs : Fs) : Fs.Walks Lawful h fs :=
  ⟨Or.inl lawful_sleep, Or.inl (lawful_panic (by decide)),
    Or.inl (lawful_panic (by decide)), Or.inl (lawful_panic (by decide)),
    Or.inl fun _ hreason => hreason⟩

theorem Fs.Still.whole (hstill : Fs.Still fs fs') (hwhole : fs.Whole) : fs'.Whole := by
  unfold Fs.Whole Fs.dinode at *
  rw [hstill.disk, hstill.sb]
  exact hwhole

/-- Who has the lock of an inode and a reference to it may unlock it. -/
theorem unlockable {reason : Prop} (hlocked : fs.locks ip = true) (hpos : 0 < (fs.inode ip).ref) :
    (fs.inode ip).locked = false ∨ (fs.inode ip).ref < 1 → reason := by
  rintro (hfree | hlow)
  · rw [Fs.locks, hfree] at hlocked
    cases hlocked
  · omega

/-- `namex` goes where the tree of names leads.  It began in `fs₀`, before it
took the reference to `ip`. -/
theorem ends_namexFrom (hnn : ∀ e, 0 ≤ h e) (hheld₀ : fs₀.Held h) (hwalks : Fs.Walks stops h fs₀)
    (parent : Bool) (fuel : Nat) (hnamed : Fs.Named h ip fs₀ fs)
    (hstill : fs₀.Shelters h → Fs.Still fs₀ fs) (hkind : stops (.panic "ilock: no type") ∨
      (fs₀.Shelters h ∧ (fs₀.view (fs.inode ip).inum).kind ≠ 0)) (path : Name)
    (hfuel : path.length < fuel) : ends (namexFrom parent fuel ip path) fs (fun found fs' =>
      Fs.Leads h found fs₀ fs' ∧ (fs₀.Shelters h → Fs.Agrees
        (fs₀.view.walk parent fuel (fs.inode ip).inum path) found fs₀ fs')) stops := by
  induction fuel generalizing fs ip path with
  | zero => exact (Nat.not_lt_zero _ hfuel).elim
  | succ fuel ih =>
    have hok := hnamed.looks.ok
    have hheld := hnamed.looks.held hheld₀
    have hpos := hheld.pos hnn
    have hinum : (fs.inode ip).inum < fs.sb.ninodes :=
      hnamed.looks.sb ▸ hnamed.inum
    unfold namexFrom View.walk
    cases hskip : skipelem path with
    | none =>
      dsimp only
      have hshel := fun hshel : fs₀.Shelters h =>
        hshel.looks hnamed.looks (hstill hshel).view
      rw [ends_ite]
      split
      · refine ends_seq (ends_iput_free hok hheld hpos (hwalks.free.imp id hshel)) ?_
        rintro _ fs' ⟨⟨hput, hlocks⟩, hrest⟩
        exact ⟨Or.inl ⟨rfl, hnamed.looks.give_back hput,
          by rw [hlocks, hnamed.locks]⟩, fun hsettled =>
            ⟨(hstill hsettled).trans (hrest (hshel hsettled)), rfl⟩⟩
      · exact ⟨Or.inr ⟨ip, [], rfl, hnamed⟩, fun hsettled =>
          ⟨hstill hsettled, rfl⟩⟩
    | some next =>
      obtain ⟨name, rest⟩ := next
      have hshorter := skipelem_length hskip
      dsimp only
      have hslept : (fs.inode ip).locked = true → stops .sleep := by
        intro hlocked
        refine hwalks.idle.resolve_right fun hidle => ?_
        have hfree := hidle ip
        rw [← hnamed.locks, Fs.locks, hlocked] at hfree
        cases hfree
      have htyped : (fs.dinode (fs.inode ip).inum).type = 0 → stops (.panic "ilock: no type") := by
        intro hzero
        refine hkind.resolve_right fun hall => hall.2 ?_
        rw [← (hstill hall.1).view, view_kind hinum, hzero]
      refine ends_seq (ends_ilock_of hok hinum (h + one ip) (fun hlt => by omega) hslept htyped) ?_
      rintro _ fs₁ ⟨hstate, hlock⟩
      have hok₁ := hlock.looks.ok
      have hheld₁ := hlock.looks.held_zero hheld
      have hlook₁ : Fs.Looks h (one ip) fs₀ fs₁ := by
        have htrans := hnamed.looks.trans (hlock.looks.mono (le_add_one h ip))
        rwa [add_zero] at htrans
      have hstill₁ : fs₀.Shelters h → Fs.Still fs₀ fs₁ := fun hsettled =>
        (hstill hsettled).trans (hstate ▸ .withInode fs ip _)
      have hlocked : fs₁.locks ip = true := by
        rw [hlock.locks, Function.update_self]
      have hback : Function.update fs₁.locks ip false = fs₀.locks := by
        rw [hlock.locks_back, hnamed.locks]
      have hleave : ends (iunlockput ip) fs₁ (fun _ fs' =>
          Fs.Missed h fs₀ fs' ∧ (fs₀.Shelters h → Fs.Still fs₀ fs'))
          stops := by
        have hshel₁ := fun hshel : fs₀.Shelters h =>
          hshel.looks hlook₁ (hstill₁ hshel).view
        refine ends_mono (ends_iunlockput_free hok₁ hheld₁ (hwalks.free.imp id hshel₁)
          (unlockable hlocked hlock.loaded.ref)) ?_
        rintro _ fs₂ ⟨⟨hput, hlocks⟩, hrest⟩
        exact ⟨⟨hlook₁.give_back hput, hlocks.trans hback⟩, fun hsettled => (hstill₁ hsettled).trans
            (hrest (hshel₁ hsettled))⟩
      have htype : fs₀.Shelters h → (fs₁.inode ip).copy.type =
          (fs₀.view (fs.inode ip).inum).kind := by
        intro hsettled
        rw [← (hstill₁ hsettled).view, ← hlock.inum, hok₁.view_node hlock.loaded, Dinode.node_kind]
      rw [ends_bind, ends_read, ends_ite]
      split
      next hnot =>
        refine ends_seq hleave ?_
        rintro _ fs₂ ⟨hmiss, hrest⟩
        refine ⟨Or.inl ⟨rfl, hmiss⟩, fun hsettled => ⟨hrest hsettled, ?_⟩⟩
        rw [if_pos (by rwa [← htype hsettled])]
        rfl
      rename_i hdir
      rw [not_not] at hdir
      have hnode := fun hsettled : fs₀.Shelters h =>
        not_not.mpr ((htype hsettled).symm.trans hdir)
      rw [ends_ite]
      split
      · refine ends_seq (ends_iunlock_of (unlockable hlocked hlock.loaded.ref)) ?_
        rintro _ fs₂ ⟨rfl, hpos₁⟩
        have hself : ((fs₁.unlockInode ip).inode ip).inum = (fs.inode ip).inum := by
          rw [Fs.unlockInode, withInode_self, hlock.inum]
        refine ⟨Or.inr ⟨ip, name, rfl, ?_, ?_, by rw [hself]; exact
          hnamed.inum⟩, fun hsettled => ⟨(hstill₁ hsettled).trans (.withInode fs₁ ip _), ?_⟩⟩
        · have htrans := hlook₁.trans (looks_unlockInode (hok₁.unlockInode hpos₁) h)
          rwa [add_zero] at htrans
        · rw [unlockInode_locks, hback]
        · rw [if_neg (hnode hsettled), Option.map_some, hself]
      have hwhole : ¬DIRENT ∣ (fs₁.inode ip).copy.size.toNat → stops (.panic "dirlookup read") := by
        intro hcut
        refine hwalks.whole.resolve_right fun hall => hcut ?_
        rw [hlock.loaded.sync hok₁] at hdir ⊢
        exact (hstill₁ hall.1).whole hall.2 _
          (hlock.loaded.inum hok₁) hdir
      have hroom : (∀ e, (fs₁.inode e).ref ≠ 0) → stops (.panic "iget: no inodes") := by
        intro hfull
        refine hwalks.room.resolve_right fun hall => ?_
        obtain ⟨e, hne, hzero⟩ := hall.2 ip
        apply hfull e
        rw [hlook₁.ref, hall.1, hzero, one_of_ne hne]
        rfl
      refine ends_seq (ends_dirlookup_found hwhole hroom hok₁ hheld₁ hlock.loaded
        (fun hno => (hno hdir).elim) name) ?_
      have hseen : fs₀.Shelters h → fs₁.view.lookup (fs₁.inode ip).inum
          name = fs₀.view.lookup (fs.inode ip).inum name := by
        intro hsettled
        rw [(hstill₁ hsettled).view, hlock.inum]
      rintro next fs₂ ⟨_, ⟨rfl, rfl, hnone⟩ | ⟨found, off, rfl, hfound⟩⟩
      · refine ends_seq hleave ?_
        rintro _ fs₃ ⟨hmiss, hrest⟩
        refine ⟨Or.inl ⟨rfl, hmiss⟩, fun hsettled => ⟨hrest hsettled, ?_⟩⟩
        rw [if_neg (hnode hsettled), ← hseen hsettled, hnone]
        rfl
      obtain ⟨e, hsome, hentry⟩ := hfound.entry
      have hheld₂ : fs₂.Held (h + one found + one ip) := by
        rw [add_right_comm]
        exact hfound.looks.held hheld₁
      have hnn₂ : ∀ x, 0 ≤ (h + one found) x := fun x =>
        (hnn x).trans (le_add_one h found x)
      have hlook₂ := hlook₁.trans (hfound.looks.mono (le_add_one h ip))
      have hstill₂ := fun hsettled => (hstill₁ hsettled).trans hfound.still
      have hshel₂ : fs₀.Shelters h → fs₂.Shelters (h + one found) :=
        fun hshel => (hshel.looks hlook₂ (hstill₂ hshel).view).mono (le_add_one h found)
      refine ends_seq (ends_iunlockput_free hfound.looks.ok hheld₂
        (hwalks.free.imp id hshel₂) (unlockable
          (by rw [hfound.locks, hlocked]) (hheld₂.pos hnn₂))) ?_
      rintro _ fs₃ ⟨⟨hput, hlocks₃⟩, hrest₃⟩
      have hlook₃ : Fs.Looks h (one found) fs₀ fs₃ := by
        have htrans := hlook₂.trans (hput.mono (le_add_one h found))
        rwa [add_comm (one ip), add_neg_cancel_right] at htrans
      have hself := hput.inum found (add_one_pos hnn found)
      have hnamed₃ : Fs.Named h found fs₀ fs₃ := by
        refine ⟨hlook₃, by rw [hlocks₃, hfound.locks, hback], ?_⟩
        rw [hself, ← hlook₁.sb]
        exact hfound.inum
      refine ends_mono (ih hnamed₃ (fun hsettled => (hstill₂ hsettled).trans
        (hrest₃ (hshel₂ hsettled))) ?_ rest (by omega)) ?_
      · refine hwalks.typed.imp id fun hall => ⟨hall.1, ?_⟩
        rw [hseen hall.1] at hsome
        have hmatch := List.find?_some hsome
        rw [decide_eq_true_eq] at hmatch
        rw [hself, hentry]
        exact hall.2.1 _ (not_not.mp (hnode hall.1)) e (List.mem_of_find?_eq_some hsome) hmatch.1
      · rintro result fs₄ ⟨hleads, hagrees⟩
        refine ⟨hleads, fun hsettled => ?_⟩
        have hrest := hagrees hsettled
        rw [hself, hentry] at hrest
        rw [hseen hsettled] at hsome
        rw [if_neg (hnode hsettled), hsome]
        exact hrest

/-- The directory a lookup may start from. -/
def Fs.CwdOk (fs : Fs) (cwd : Option InodeRef) : Prop :=
  ∀ ip, cwd = some ip → 0 < (fs.inode ip).ref ∧ (fs.inode ip).inum < fs.sb.ninodes

def Fs.startOf (fs : Fs) (cwd : Option InodeRef) (path : Name) : Option Nat :=
  if path.head? = some slash then some ROOTINO
  else cwd.map (fun ip => (fs.inode ip).inum)

/-- The inode a path leads to, or its parent and the last element. -/
def Fs.resolve (fs : Fs) (cwd : Option InodeRef) (path : Name)
    (parent : Bool) : Option (Nat × Name) :=
  (fs.startOf cwd path).bind fun x =>
    fs.view.walk parent (path.length + 1) x path

variable {cwd : Option InodeRef}

/-- Where `namex` leads, and why it may stop on the way. -/
theorem ends_namex_of (hok : fs.Ok) (hnn : ∀ e, 0 ≤ h e) (hheld : fs.Held h)
    (hwalks : Fs.Walks stops h fs) (hcwd : fs.CwdOk cwd)
    (halive : ∀ ip, cwd = some ip → stops (.panic "ilock: no type") ∨
      (fs.Shelters h ∧ (fs.view (fs.inode ip).inum).kind ≠ 0))
    (hnull : cwd = none → stops (.panic "null cwd")) (path : Name)
    (parent : Bool) : ends (namex cwd path parent) fs (fun found fs' =>
      Fs.Leads h found fs fs' ∧ (fs.Shelters h →
        Fs.Agrees (fs.resolve cwd path parent) found fs fs')) stops := by
  unfold namex Fs.resolve Fs.startOf
  dsimp only
  rw [ends_ite]
  split
  · refine ends_seq (ends_iget_of ROOTINO fun hfull => ?_) fun start fs₁ hrun => ?_
    · refine hwalks.room.resolve_right fun ⟨hrefs, hroom⟩ => ?_
      obtain ⟨e, _, hzero⟩ := hroom ⟨0, by decide⟩
      exact hfull e ((hrefs e).trans hzero)
    have hnum := (iget_self hrun).1
    have hends := ends_namexFrom hnn hheld hwalks parent (path.length + 1)
      ⟨iget_looks hok hheld hrun, iget_locks hrun, by rw [hnum]; exact hok.root⟩
      (fun _ => .iget hrun) (by
        rw [hnum]
        exact hwalks.typed.imp id fun hgood => ⟨hgood.1, hgood.2.2⟩)
      path (Nat.lt_succ_self _)
    rwa [hnum] at hends
  · cases cwd with
    | none =>
      rw [ends_bind, ends_panic]
      exact hnull rfl
    | some cwd =>
      obtain ⟨hpos, hinum⟩ := hcwd cwd rfl
      rw [ends_bind]
      have hdup : ends (idup cwd) fs (fun _ fs' => Fs.Still fs fs') stops := by
        unfold idup
        rw [ends_bind, ends_setInode, ends_pure]
        exact .withInode fs cwd _
      refine ends_mono (ends_and hdup (wlp_idup hok hpos h)) ?_
      rintro start fs₁ ⟨⟨rfl, hlooks, hsame, hlocks⟩, hstill⟩
      have hends := ends_namexFrom hnn hheld hwalks parent (path.length + 1)
        ⟨hlooks, hlocks, hsame ▸ hinum⟩ (fun _ => hstill)
        (by rw [hsame]; exact halive start rfl) path (Nat.lt_succ_self _)
      rwa [hsame] at hends

theorem ends_namex (hok : fs.Ok) (hnn : ∀ e, 0 ≤ h e) (hheld : fs.Held h) (hcwd : fs.CwdOk cwd)
    (path : Name) (parent : Bool) : ends (namex cwd path parent) fs (fun found fs' =>
      Fs.Leads h found fs fs' ∧ (fs.Shelters h →
        Fs.Agrees (fs.resolve cwd path parent) found fs fs')) Lawful :=
  ends_namex_of hok hnn hheld (.lawful h fs) hcwd (fun _ _ => Or.inl (lawful_panic (by decide)))
    (fun _ => lawful_panic (by decide)) path parent

end Walk

end CkptKernel
