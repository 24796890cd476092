/-
The calls of kernel/sysfile.c that work on names.  References that others hold
keep their inodes through each of them, whether it succeeds or not.
-/
import CkptKernel.DirectoryUpdate
import CkptKernel.Syscalls

namespace CkptKernel

open ByteMem Code

/-- The current directory of the caller is one of the references in `h`. -/
def Fs.CwdHeld (h : InodeRef → Int) (cwd : Option InodeRef) (fs : Fs) : Prop :=
  ∀ ip, cwd = some ip → 0 < h ip ∧ (fs.inode ip).inum < fs.sb.ninodes

section NameCalls

variable {h d : InodeRef → Int} {fs fs' : Fs} {cwd : Option InodeRef}
  {ip dp : InodeRef}

theorem Fs.CwdHeld.cwdOk (hcwd : fs.CwdHeld h cwd) (hheld : fs.Held h) :
    fs.CwdOk cwd := fun ip heq =>
  ⟨Int.lt_of_lt_of_le (hcwd ip heq).1 (hheld ip), (hcwd ip heq).2⟩

theorem Fs.CwdHeld.evolves (hcwd : fs.CwdHeld h cwd)
    (hev : Fs.Evolves h d fs fs') : fs'.CwdHeld h cwd := by
  intro ip heq
  obtain ⟨hpos, hinum⟩ := hcwd ip heq
  rw [hev.inum ip hpos, hev.sb]
  exact ⟨hpos, hinum⟩

section

variable (hok : fs.Ok)
include hok

/-- Give a reference back, as `h` sees it. -/
theorem ends_iunlockput_evolves (hheld : fs.Held (h + one ip)) :
    ends (iunlockput ip) fs (fun _ fs' => Fs.Evolves h (-one ip) fs fs' ∧ fs'.Held h) Lawful :=
  ends_mono (ends_iunlockput hok hheld) fun _ _ hpost =>
    ⟨hpost.1.evolves, hpost.1.held_back hheld⟩

theorem ends_linkBad (hheld : fs.Held (h + one ip)) (hinum : (fs.inode ip).inum < fs.sb.ninodes) :
    ends (linkBad ip) fs (fun _ fs' => Fs.Evolves h (-one ip) fs fs') Lawful := by
  unfold linkBad
  refine ends_seq (ends_ilock hok hinum (h + one ip)) ?_
  intro _ fs₁ hlock
  rw [ends_bind, ends_setCopy, ends_bind]
  refine ends_iupdate_withCopy fun log => ?_
  have hev := hlock.looks.evolves.zero_trans (hlock.looks.ok.amend_evolves
    hlock.loaded (keepsShape_nlink (· - 1)) log (h + one ip))
  refine ends_seq (ends_iunlockput_evolves hev.ok (hev.held_zero hheld)) ?_
  rintro _ fs₂ ⟨hput, _⟩
  exact (hev.mono (le_add_one h ip)).zero_trans hput

theorem ends_linkName (hnn : ∀ e, 0 ≤ h e) (hheld : fs.Held (h + one ip)) (hcwd : fs.CwdHeld h cwd)
    (hinum : (fs.inode ip).inum < fs.sb.ninodes) (new : Name) :
    ends (linkName cwd ip new) fs (fun _ fs' => Fs.Evolves h (-one ip) fs fs') Lawful := by
  have hnn₁ := add_one_nonneg hnn ip
  have hpos := add_one_pos hnn ip
  unfold linkName nameiparent
  have hcwd₁ : fs.CwdHeld (h + one ip) cwd := fun e heq =>
    ⟨Int.lt_of_lt_of_le (hcwd e heq).1 (le_add_one h ip e), (hcwd e heq).2⟩
  refine ends_seq (ends_namex hok hnn₁ hheld (hcwd₁.cwdOk hheld) new true) ?_
  rintro found fs₁ ⟨⟨rfl, hmiss⟩ | ⟨dp, name, rfl, hnamed⟩, _⟩
  · have hev := hmiss.looks.evolves
    refine ends_mono (ends_linkBad hev.ok (hev.held_zero hheld) ?_) ?_
    · rwa [hev.inum ip hpos, hev.sb]
    · intro _ fs₂ hbad
      exact (hev.mono (le_add_one h ip)).zero_trans hbad
  · have hev := hnamed.looks.evolves
    have hheld₁ := hev.held hheld
    dsimp only
    refine ends_seq (ends_ilock hev.ok (by rw [hev.sb]; exact hnamed.inum) (h + one ip + one dp)) ?_
    intro _ fs₂ hlock
    have hheld₂ := hlock.looks.held_zero hheld₁
    have hev₂ := hev.trans_zero (hlock.looks.evolves.mono (le_add_one _ dp))
    have hinum₂ : (fs₂.inode ip).inum < fs₂.sb.ninodes := by
      rwa [hev₂.inum ip hpos, hev₂.sb]
    rw [ends_bind, ends_read]
    refine ends_seq (ends_dirlink hlock.looks.ok (add_one_nonneg hnn₁ dp)
      hheld₂ hlock.loaded name hinum₂) ?_
    rintro linked fs₃ ⟨hlink, _⟩
    refine ends_seq (ends_iunlockput_evolves hlink.ok (hlink.held_zero hheld₂)) ?_
    rintro _ fs₄ ⟨hput, hheld₄⟩
    have hev₄ : Fs.Evolves (h + one ip) 0 fs fs₄ := by
      have hall := (hev₂.trans_zero (hlink.mono (le_add_one _ dp))).trans hput
      rwa [add_neg_cancel] at hall
    rw [ends_ite]
    split
    · refine ends_seq (ends_iput_looks hev₄.ok hheld₄ (hheld₄.pos hnn)) ?_
      rintro _ fs₅ ⟨hput', _⟩
      exact (hev₄.mono (le_add_one h ip)).zero_trans hput'.evolves
    · refine ends_mono (ends_linkBad hev₄.ok hheld₄ ?_) ?_
      · rwa [hev₄.inum ip hpos, hev₄.sb]
      · intro _ fs₅ hbad
        exact (hev₄.mono (le_add_one h ip)).zero_trans hbad

/-- What a path lookup without a parent gives. -/
theorem ends_namei (hnn : ∀ e, 0 ≤ h e) (hheld : fs.Held h) (hcwd : fs.CwdHeld h cwd)
    (path : Name) : ends (namei cwd path) fs (fun found fs' => (found = none ∧ Fs.Missed h fs fs') ∨
        ∃ ip, found = some ip ∧ Fs.Named h ip fs fs') Lawful := by
  unfold namei
  refine ends_seq (ends_namex hok hnn hheld (hcwd.cwdOk hheld) path false) ?_
  rintro found fs₁ ⟨⟨rfl, hmiss⟩ | ⟨ip, name, rfl, hnamed⟩, _⟩
  · exact Or.inl ⟨rfl, hmiss⟩
  · exact Or.inr ⟨ip, rfl, hnamed⟩

theorem ends_link (hnn : ∀ e, 0 ≤ h e) (hheld : fs.Held h) (hcwd : fs.CwdHeld h cwd)
    (old new : Name) : ends (link cwd old new) fs (fun _ fs' => Fs.Evolves h 0 fs fs') Lawful := by
  unfold link
  refine ends_seq (ends_namei hok hnn hheld hcwd old) ?_
  rintro found fs₁ (⟨rfl, hmiss⟩ | ⟨ip, rfl, hnamed⟩)
  · exact hmiss.looks.evolves
  have hev := hnamed.looks.evolves
  have hheld₁ := hev.held hheld
  dsimp only
  refine ends_seq (ends_ilock hev.ok (by rw [hev.sb]; exact hnamed.inum) (h + one ip)) ?_
  intro _ fs₂ hlock
  have hlook := hlock.looks.evolves
  rw [ends_bind, ends_read, ends_ite]
  split
  · refine ends_seq (ends_iunlockput_evolves hlook.ok (hlook.held_zero hheld₁)) ?_
    rintro _ fs₃ ⟨hput, _⟩
    have hall := (hev.trans_zero (hlook.mono (le_add_one h ip))).trans hput
    rwa [add_neg_cancel] at hall
  · rw [ends_bind, ends_setCopy, ends_bind]
    refine ends_iupdate_withCopy fun log => ?_
    have hamend := hlook.ok.amend_evolves hlock.loaded (keepsShape_nlink (· + 1)) log (h + one ip)
    rw [ends_bind]
    refine Quiet.ends (quiet_iunlock ip) (wlp_mono (wlp_iunlock ip) ?_)
    rintro _ fs₄ ⟨rfl, hpos₃, _⟩
    have hunlock := (looks_unlockInode (hamend.ok.unlockInode hpos₃) (h + one ip)).evolves
    have hlast := (hlook.zero_trans hamend).zero_trans hunlock
    have hev₄ := hev.trans_zero (hlast.mono (le_add_one h ip))
    refine ends_mono (ends_linkName hunlock.ok hnn (hlast.held_zero hheld₁)
      (hcwd.evolves hev₄) ?_ new) ?_
    · rw [hlast.inum ip (add_one_pos hnn ip), hlast.sb, hev.sb]
      exact hnamed.inum
    · intro _ fs₅ hname
      have hall := hev₄.trans hname
      rwa [add_neg_cancel] at hall

/-- Looking whether a directory is empty changes nothing. -/
theorem wlp_isdiremptyFrom (hloaded : fs.Loaded dp) (fuel off : Nat) :
    wlp (isdiremptyFrom dp fuel off) fs (fun _ fs' => fs' = fs) := by
  induction fuel generalizing off with
  | zero => exact (wlp_pure _).mpr rfl
  | succ fuel ih =>
    unfold isdiremptyFrom
    rw [wlp_bind, wlp_read, wlp_ite]
    split
    · refine wlp_seq (wlp_iff_ends.mpr (ends_readDirent (hok.full hloaded) _ fun _ => trivial)) ?_
      rintro de fs' ⟨rfl, _, _⟩
      rw [wlp_ite]
      split
      · exact (wlp_pure _).mpr rfl
      · exact ih _
    · exact (wlp_pure _).mpr rfl

theorem wlp_mayUnlink (hloaded : fs.Loaded ip) : wlp (mayUnlink ip) fs (fun _ fs' => fs' = fs) := by
  unfold mayUnlink isdirempty
  rw [wlp_bind, wlp_read, wlp_ite]
  split
  · rw [wlp_bind, wlp_read]
    exact wlp_isdiremptyFrom hok hloaded _ _
  · exact (wlp_pure _).mpr rfl

theorem ends_unlinkEntry (hnn : ∀ e, 0 ≤ h e) (hheld : fs.Held (h + one ip + one dp))
    (hdp : fs.Loaded dp) (hip : fs.Loaded ip) {off : Nat} (halign : ∃ k, off = DIRENT * k) :
    ends (unlinkEntry dp ip off) fs (fun _ fs' =>
      Fs.Evolves h (-one dp - one ip) fs fs') Lawful := by
  have hipPos : 0 < (h + one ip) ip := add_one_pos hnn ip
  have hipPos' : 0 < (h + one ip + one dp) ip :=
    Int.lt_of_lt_of_le hipPos (le_add_one _ dp ip)
  have hdpPos : 0 < (h + one ip + one dp) dp :=
    add_one_pos (add_one_nonneg hnn ip) dp
  -- the directory has been written to; it and the inode lose a link
  have hrest : ∀ fs₂, Fs.Evolves (h + one ip + one dp) 0 fs fs₂ → ends (iunlockput dp >>= fun _ =>
        setCopy ip (fun dn => { dn with nlink := dn.nlink - 1 }) >>= fun _ =>
          iupdate ip >>= fun _ => iunlockput ip >>= fun _ => pure true) fs₂
        (fun _ fs' => Fs.Evolves h (-one dp - one ip) fs fs') Lawful := by
    intro fs₂ hev₂
    have hheld₂ := hev₂.held_zero hheld
    have hip₂ := hev₂.loaded hipPos' hheld₂ hip
    refine ends_seq (ends_iunlockput_evolves hev₂.ok hheld₂) ?_
    rintro _ fs₃ ⟨hput, hheld₃⟩
    have hip₃ := hput.loaded hipPos hheld₃ hip₂
    rw [ends_bind, ends_setCopy, ends_bind]
    refine ends_iupdate_withCopy fun log => ?_
    have hamend := hput.ok.amend_evolves hip₃ (keepsShape_nlink (· - 1)) log (h + one ip)
    refine ends_seq (ends_iunlockput_evolves hamend.ok (hamend.held_zero hheld₃)) ?_
    rintro _ fs₅ ⟨hput', _⟩
    have hfour := ((hev₂.mono (le_add_one _ dp)).zero_trans hput).trans_zero hamend
    have hall := (hfour.mono (le_add_one h ip)).trans hput'
    rwa [← sub_eq_add_neg] at hall
  unfold unlinkEntry
  rw [ends_bind]
  refine Quiet.ends (quiet_writei _ _ _) (wlp_mono (wlp_writei
    (hok.working hdp.ref hdp.valid) _ _ (by decide)) ?_)
  rintro written fs₁ hwritten
  rw [ends_ite]
  split
  · exact lawful_panic (by decide)
  rename_i hwhole
  rw [not_not] at hwhole
  rcases hwritten with ⟨hnone, _⟩ | ⟨t, _, hwrote⟩
  · rw [hwhole] at hnone
    cases hnone
  have hwrite : fs.WriteOk dp (.kernel (fun _ => 0)) off DIRENT := by
    intro _
    refine ⟨rfl, halign, Buffer.kernel_total _, ?_⟩
    change getLE (fun _ => 0) 0 2 < _
    rw [getLE_zero]
    exact Nat.lt_of_le_of_lt (Nat.zero_le _) hok.root
  have hev₁ := hwrote.evolves hok hdp hwrite (h + one ip + one dp)
  have hdp₁ := hev₁.loaded hdpPos (hev₁.held_zero hheld) hdp
  rw [ends_bind, ends_read, ends_bind, Code.when, ends_ite]
  split
  · rw [ends_bind, ends_setCopy]
    refine ends_iupdate_withCopy fun log => ?_
    exact hrest _ (hev₁.zero_trans (hev₁.ok.amend_evolves hdp₁
      (keepsShape_nlink (· - 1)) log (h + one ip + one dp)))
  · exact hrest fs₁ hev₁

end

/-- Give back the directory a lookup has found. -/
theorem ends_leave (hev : Fs.Evolves h (one dp) fs fs') (hheld : fs.Held h)
    {A : Type} (result : A) : ends (iunlockput dp >>= fun _ => pure result) fs' (fun value fs'' =>
      value = result ∧ Fs.Evolves h 0 fs fs'') Lawful := by
  refine ends_seq (ends_iunlockput_evolves hev.ok (hev.held hheld)) ?_
  rintro _ fs'' ⟨hput, _⟩
  refine ⟨rfl, ?_⟩
  have hall := hev.trans hput
  rwa [add_neg_cancel] at hall

theorem ends_unlink (hok : fs.Ok) (hnn : ∀ e, 0 ≤ h e) (hheld : fs.Held h) (hcwd : fs.CwdHeld h cwd)
    (path : Name) : ends (unlink cwd path) fs (fun _ fs' => Fs.Evolves h 0 fs fs') Lawful := by
  unfold unlink nameiparent
  refine ends_seq (ends_namex hok hnn hheld (hcwd.cwdOk hheld) path true) ?_
  rintro found fs₁ ⟨⟨rfl, hmiss⟩ | ⟨dp, name, rfl, hnamed⟩, _⟩
  · exact hmiss.looks.evolves
  have hev := hnamed.looks.evolves
  have hheld₁ := hev.held hheld
  dsimp only
  refine ends_seq (ends_ilock hev.ok (by rw [hev.sb]; exact hnamed.inum) (h + one dp)) ?_
  intro _ fs₂ hlock
  have hev₂ := hev.trans_zero (hlock.looks.evolves.mono (le_add_one h dp))
  have hheld₂ := hlock.looks.held_zero hheld₁
  rw [ends_ite]
  split
  · exact ends_mono (ends_leave hev₂ hheld false) fun _ _ hpost => hpost.2
  refine ends_seq (ends_dirlookup hlock.looks.ok hheld₂ hlock.loaded name) ?_
  rintro entry fs₃ ⟨_, ⟨rfl, rfl, _⟩ | ⟨ip, off, rfl, hfound⟩⟩
  · exact ends_mono (ends_leave hev₂ hheld false) fun _ _ hpost => hpost.2
  have hentry := hfound.looks.evolves
  have hheld₃ : fs₃.Held (h + one ip + one dp) := by
    rw [add_right_comm]
    exact hentry.held hheld₂
  have hdp₃ : fs₃.Loaded dp := by
    refine ⟨?_, hentry.valid dp (add_one_pos hnn dp) hlock.loaded.valid⟩
    rw [hentry.ref]
    exact Int.add_pos_of_pos_of_nonneg hlock.loaded.ref (one_nonneg ip dp)
  dsimp only
  refine ends_seq (ends_ilock hentry.ok
    (by rw [hentry.sb]; exact hfound.inum) (h + one ip + one dp)) ?_
  intro _ fs₄ hlock'
  have hlook := hlock'.looks.evolves
  have hheld₄ := hlook.held_zero hheld₃
  have hev₄ : Fs.Evolves h (one dp + one ip) fs fs₄ := by
    have hle : ∀ e, h e ≤ (h + one ip + one dp) e := fun e =>
      Int.le_trans (le_add_one h ip e) (le_add_one _ dp e)
    exact (hev₂.trans (hentry.mono (le_add_one h dp))).trans_zero (hlook.mono hle)
  rw [ends_bind, ends_read, ends_ite]
  split
  · exact lawful_panic (by decide)
  rw [ends_bind]
  refine Quiet.ends (quiet_mayUnlink ip) (wlp_mono (wlp_mayUnlink hlook.ok hlock'.loaded) ?_)
  rintro free _ rfl
  rw [ends_ite]
  split
  · refine ends_mono (ends_unlinkEntry hlook.ok hnn hheld₄
      (hlock'.others dp hdp₃) hlock'.loaded hfound.aligned) ?_
    intro _ fs₅ hdone
    have hall := hev₄.trans hdone
    rwa [← neg_add', add_neg_cancel] at hall
  · rw [add_right_comm] at hheld₄
    refine ends_seq (ends_iunlockput_evolves hlook.ok hheld₄) ?_
    rintro _ fs₅ ⟨hput, _⟩
    have hall := hev₄.trans (hput.mono (le_add_one h dp))
    rw [add_neg_cancel_right] at hall
    exact ends_mono (ends_leave hall hheld false) fun _ _ hpost => hpost.2

/-- Whatever `create` returns is locked, loaded and held once. -/
theorem Fs.CreateEnd.some_evolves {type : UInt16} (hend : Fs.CreateEnd h type fs (some ip) fs') :
    Fs.Evolves h (one ip) fs fs' ∧ fs'.Loaded ip ∧
      (type = T_FILE → (fs'.inode ip).copy.type ≠ T_DIR) := by
  cases hend with
  | old hlooks hloaded _ htype _ _ =>
    refine ⟨hlooks.evolves, hloaded, fun _ => ?_⟩
    rcases htype with htype | htype <;> rw [htype] <;> decide
  | new _ _ hev hloaded htype _ _ =>
    refine ⟨hev, hloaded, fun hfile => ?_⟩
    rw [htype, hfile]
    decide

theorem ends_make (hok : fs.Ok) (hnn : ∀ e, 0 ≤ h e) (hheld : fs.Held h)
    (hcwd : fs.CwdHeld h cwd) (path : Name) (type major minor : UInt16) :
    ends (make cwd path type major minor) fs (fun _ fs' => Fs.Evolves h 0 fs fs') Lawful := by
  unfold make
  refine ends_seq (ends_create hok hnn hheld (hcwd.cwdOk hheld) path type major minor) ?_
  intro found fs₁ hend
  cases found with
  | none =>
    cases hend with
    | none hev _ => exact hev
  | some ip =>
    exact ends_mono (ends_leave hend.some_evolves.1 hheld true) fun _ _ hpost => hpost.2

/-- The inode `sys_open` goes on with: a directory only for reading. -/
structure Fs.Opened (h : InodeRef → Int) (ip : InodeRef) (omode : UInt32)
    (fs fs' : Fs) : Prop where
  evolves : Fs.Evolves h (one ip) fs fs'
  loaded : fs'.Loaded ip
  dir : (fs'.inode ip).copy.type = T_DIR → omode = O_RDONLY

theorem ends_openInode (hok : fs.Ok) (hnn : ∀ e, 0 ≤ h e) (hheld : fs.Held h)
    (hcwd : fs.CwdHeld h cwd) (path : Name) (omode : UInt32) :
    ends (openInode cwd path omode) fs (fun found fs' => (found = none ∧ Fs.Evolves h 0 fs fs') ∨
        ∃ ip, found = some ip ∧ Fs.Opened h ip omode fs fs') Lawful := by
  unfold openInode
  rw [ends_ite]
  split
  · refine ends_mono (ends_create hok hnn hheld (hcwd.cwdOk hheld) path T_FILE 0 0) ?_
    intro found fs₁ hend
    cases found with
    | none =>
      cases hend with
      | none hev _ => exact Or.inl ⟨rfl, hev⟩
    | some ip =>
      obtain ⟨hev, hloaded, hfile⟩ := hend.some_evolves
      exact Or.inr ⟨ip, rfl, hev, hloaded, fun hdir => (hfile rfl hdir).elim⟩
  · refine ends_seq (ends_namei hok hnn hheld hcwd path) ?_
    rintro found fs₁ (⟨rfl, hmiss⟩ | ⟨ip, rfl, hnamed⟩)
    · exact Or.inl ⟨rfl, hmiss.looks.evolves⟩
    have hev := hnamed.looks.evolves
    dsimp only
    refine ends_seq (ends_ilock hev.ok (by rw [hev.sb]; exact hnamed.inum) (h + one ip)) ?_
    intro _ fs₂ hlock
    have hev₂ := hev.trans_zero (hlock.looks.evolves.mono (le_add_one h ip))
    rw [ends_bind, ends_read, ends_ite]
    split
    · exact ends_mono (ends_leave hev₂ hheld none) fun _ _ hpost => Or.inl hpost
    next hmode =>
      refine Or.inr ⟨ip, rfl, hev₂, hlock.loaded, fun hdir => ?_⟩
      by_contra hne
      exact hmode ⟨hdir, hne⟩

/-- Truncating a file; a directory would be left without entries. -/
theorem Fs.Truncated.evolves (hok : fs.Ok) (hloaded : fs.Loaded ip)
    (htrunc : Fs.Truncated ip fs fs') (h : InodeRef → Int) :
    Fs.Evolves h 0 fs fs' ∧ ∀ e, fs.Loaded e → fs'.Loaded e := by
  have hinum := hloaded.inum hok
  have htype := hloaded.type hok
  have hsync := hloaded.sync hok
  have hself : fs'.inode ip = { fs.inode ip with
      copy := (fs.inode ip).copy.emptied } := by
    rw [htrunc.inode, Fs.withCopy, withInode_self]
  have hother : ∀ e, e ≠ ip → fs'.inode e = fs.inode e := by
    intro e hne
    rw [htrunc.inode, Fs.withCopy, withInode_of_ne _ _ _ hne]
  have hentry : ∀ e, (fs'.inode e).ref = (fs.inode e).ref ∧ (fs'.inode e).inum = (fs.inode e).inum ∧
      (fs'.inode e).valid = (fs.inode e).valid := by
    intro e
    by_cases heq : e = ip
    · rw [heq, hself]
      exact ⟨rfl, rfl, rfl⟩
    · rw [hother e heq]
      exact ⟨rfl, rfl, rfl⟩
  have hdinode : ∀ inum, inum < fs.sb.ninodes → inum ≠ (fs.inode ip).inum →
      fs'.dinode inum = fs.dinode inum := by
    intro inum hlt hne
    rw [htrunc.dinode inum hlt, emptied_of_ne hne, Fs.seen, Function.update_of_ne hne]
  have htarget : fs'.dinode (fs.inode ip).inum = (fs.inode ip).copy.emptied := by
    rw [htrunc.dinode _ hinum, Fs.emptied, Function.update_self]
  have hok' : fs'.Ok := by
    refine hok.change (fs.inode ip).inum htrunc.sb htrunc.sound ?_ ?_ ?_ ?_ hdinode ?_ ?_
    · intro e
      rw [(hentry e).1]
      exact hok.ref e
    · intro e he
      rw [(hentry e).1] at he
      exact ⟨he, (hentry e).2.1⟩
    · intro e he hne hv
      have heq : e ≠ ip := fun heq => hne (by rw [heq])
      rw [hother e heq] at hv ⊢
      exact ⟨hv, rfl⟩
    · intro e he heq hv
      rw [(hentry e).1] at he
      have hip := hok.unique e ip he hloaded.ref heq
      subst hip
      rw [hself, htarget]
      exact ⟨hinum, rfl, htype⟩
    · intro inum hlt hne halloc
      exact ⟨hdinode inum hlt hne, fun o ho =>
        hok.sound.byte_congr htrunc.data inum o hlt halloc ho⟩
    · intro _ k hk
      rw [htarget] at hk
      simp [Dinode.emptied, DIRENT] at hk
  refine ⟨hok'.evolves_change htrunc.sb hentry hdinode ?_ (fun htidy => htrunc.tidy ?_) h, ?_⟩
  · intro _
    rw [htarget, ← hsync]
    rfl
  · rw [hok.seen hloaded.ref hloaded.valid]
    exact htidy
  · intro e he
    exact ⟨(hentry e).1 ▸ he.ref, (hentry e).2.2 ▸ he.valid⟩

end NameCalls

end CkptKernel
