/-
What the calls on names do to the tree of names.  A call is followed step by
step: at every point it is known how many references to each inode there are
and what the tree looks like.
-/
import CkptKernel.EntryRoom

namespace CkptKernel

open ByteMem Code

/-- A point of a call that began in `fs₀`: `c` counts the references, `v` is
the tree, and files that were there have their bytes. -/
structure Fs.Now (c : InodeRef → Int) (v : View) (fs₀ fs : Fs) : Prop where
  ok : fs.Ok
  sb : fs.sb = fs₀.sb
  counts : ∀ e, (fs.inode e).ref = c e
  view : fs.view = v
  spares : Fs.Spares fs₀.view fs₀ fs

/-- Entries with references stay for the inodes they are for. -/
structure Fs.Retains (c : InodeRef → Int) (fs fs' : Fs) : Prop where
  inum : ∀ e, 0 < c e → (fs'.inode e).inum = (fs.inode e).inum
  valid : ∀ e, 0 < c e → (fs.inode e).valid = true → (fs'.inode e).valid = true
  kind : ∀ e, 0 < c e → (fs.view (fs.inode e).inum).kind ≠ 0 →
    (fs'.view (fs.inode e).inum).kind = (fs.view (fs.inode e).inum).kind

/-- `ip` is in memory and stands for inode `x`. -/
structure Fs.Has (fs : Fs) (ip : InodeRef) (x : Nat) : Prop where
  loaded : fs.Loaded ip
  inum : (fs.inode ip).inum = x

namespace Fs.Retains

variable {c c' d : InodeRef → Int} {fs fs' fs'' : Fs}

theorem refl (c : InodeRef → Int) (fs : Fs) : Fs.Retains c fs fs :=
  ⟨fun _ _ => rfl, fun _ _ hvalid => hvalid, fun _ _ _ => rfl⟩

theorem trans (hfirst : Fs.Retains c fs fs') (hnext : Fs.Retains c fs' fs'') :
    Fs.Retains c fs fs'' := by
  refine ⟨fun e he => (hnext.inum e he).trans (hfirst.inum e he),
    fun e he hvalid => hnext.valid e he (hfirst.valid e he hvalid), ?_⟩
  intro e he hkind
  have hsame := hfirst.kind e he hkind
  have hlast := hnext.kind e he (by rwa [hfirst.inum e he, hsame])
  rwa [hfirst.inum e he, hsame] at hlast

theorem mono (hret : Fs.Retains c fs fs') (hle : ∀ e, c' e ≤ c e) : Fs.Retains c' fs fs' :=
  ⟨fun e he => hret.inum e (Int.lt_of_lt_of_le he (hle e)),
    fun e he => hret.valid e (Int.lt_of_lt_of_le he (hle e)),
    fun e he => hret.kind e (Int.lt_of_lt_of_le he (hle e))⟩

theorem of_evolves (hev : Fs.Evolves c d fs fs') : Fs.Retains c fs fs' := by
  refine ⟨hev.inum, hev.valid, fun e he hkind => ?_⟩
  have hlt := lt_of_view_kind hkind
  rw [view_kind hlt] at hkind
  rw [view_kind hlt, view_kind (hev.sb ▸ hlt), hev.type e he hlt hkind]

end Fs.Retains

section Now

variable {c d h s : InodeRef → Int} {v v' : View} {fs₀ fs fs' : Fs}
  {ip dp : InodeRef} {x : Nat}

namespace Fs.Now

section

variable (hnow : Fs.Now c v fs₀ fs)
include hnow

theorem held : fs.Held c := fun e =>
  Int.le_of_eq (hnow.counts e).symm

/-- The next point, after a change of references by `d`. -/
theorem next (hev : Fs.Evolves h d fs fs') (hview : fs'.view = v')
    (hspares : Fs.Spares fs₀.view fs fs') : Fs.Now (c + d) v' fs₀ fs' :=
  ⟨hev.ok, hev.sb.trans hnow.sb, fun e => by
    rw [hev.ref, hnow.counts, Pi.add_apply], hview, hnow.spares.trans hspares⟩

theorem next_zero (hev : Fs.Evolves h 0 fs fs') (hview : fs'.view = v')
    (hspares : Fs.Spares fs₀.view fs fs') : Fs.Now c v' fs₀ fs' := by
  have hnext := hnow.next hev hview hspares
  rwa [add_zero] at hnext

/-- A step that leaves the disk alone. -/
theorem still (hev : Fs.Evolves h d fs fs') (hstill : Fs.Still fs fs') : Fs.Now (c + d) v fs₀ fs' :=
  hnow.next hev (hstill.view.trans hnow.view) (.of_disk hstill.disk hstill.sb)

theorem still_zero (hev : Fs.Evolves h 0 fs fs') (hstill : Fs.Still fs fs') :
    Fs.Now c v fs₀ fs' := by
  have hnext := hnow.still hev hstill
  rwa [add_zero] at hnext

end

theorem drop (hnow : Fs.Now (h + one ip + -one ip) v fs₀ fs) : Fs.Now h v fs₀ fs := by
  rwa [add_neg_cancel_right] at hnow

section

variable (hnow : Fs.Now c v fs₀ fs) (hhas : fs.Has ip x)
include hnow hhas

/-- The node of an inode that the call has in memory. -/
theorem kind : (v x).kind = (fs.inode ip).copy.type := by
  rw [← hnow.view, ← hhas.inum, hnow.ok.view_node hhas.loaded, Dinode.node_kind]

theorem lt : x < fs₀.sb.ninodes := by
  rw [← hnow.sb, ← hhas.inum]
  exact hhas.loaded.inum hnow.ok

theorem alloc : (v x).kind ≠ 0 := by
  rw [hnow.kind hhas]
  exact hhas.loaded.type hnow.ok

theorem links : (v x).links = (fs.inode ip).copy.nlink := by
  rw [← hnow.view, ← hhas.inum, hnow.ok.view_node hhas.loaded]
  exact Dinode.node_links (hhas.loaded.type hnow.ok)

end

/-- What is held stays in memory. -/
theorem has (hnow : Fs.Now c v fs₀ fs') (hret : Fs.Retains s fs fs')
    (hs : 0 < s ip) (hc : 0 < c ip) (hhas : fs.Has ip x) : fs'.Has ip x := by
  refine ⟨⟨?_, hret.valid ip hs hhas.loaded.valid⟩, ?_⟩
  · rw [hnow.counts]
    exact hc
  · rw [hret.inum ip hs, hhas.inum]

end Fs.Now

theorem Fs.Covers.retains (hcov : fs.Covers h v) (hret : Fs.Retains c fs fs')
    (hle : ∀ e, 0 < h e → 0 < c e) : fs'.Covers h v := by
  intro x hkind hlinks
  obtain ⟨e, he, hinum, hvalid⟩ := hcov x hkind hlinks
  exact ⟨e, he, by rw [hret.inum e (hle e he), hinum], hret.valid e (hle e he) hvalid⟩

/-- In the course of a call, further inodes may be without links that the call
itself holds. -/
theorem Fs.Covers.shelters (hcov : fs.Covers h v) (hview : fs.view = v')
    (hle : ∀ e, h e ≤ s e) (hstray : ∀ x, (v' x).kind ≠ 0 → (v' x).links = 0 →
      ((v x).kind ≠ 0 ∧ (v x).links = 0) ∨
        ∃ e, 0 < s e ∧ (fs.inode e).inum = x ∧ (fs.inode e).valid = true) : fs.Shelters s := by
  intro x hkind hlinks
  rw [hview] at hkind hlinks
  rcases hstray x hkind hlinks with ⟨hold, hnone⟩ | hnew
  · obtain ⟨e, he, hrest⟩ := hcov x hold hnone
    exact ⟨e, Int.lt_of_lt_of_le he (hle e), hrest⟩
  · exact hnew

theorem Fs.Covers.shelters_same (hcov : fs.Covers h v) (hview : fs.view = v)
    (hle : ∀ e, h e ≤ s e) : fs.Shelters s :=
  hcov.shelters hview hle fun _ hkind hlinks => Or.inl ⟨hkind, hlinks⟩

/-- `ilock` of an inode that the call has found. -/
theorem wlp_ilock_now (hnow : Fs.Now c v fs₀ fs) (hinum : (fs.inode ip).inum = x)
    (hx : x < fs₀.sb.ninodes) : wlp (ilock ip) fs (fun _ fs' => Fs.Now c v fs₀ fs' ∧
      Fs.Retains c fs fs' ∧ fs'.Has ip x ∧ Fs.Still fs fs') := by
  have hlt : (fs.inode ip).inum < fs.sb.ninodes := by
    rw [hinum, hnow.sb]
    exact hx
  refine wlp_mono (wlp_iff_ends.mpr (ends_ilock_of hnow.ok hlt c
    (fun _ => trivial) (fun _ => trivial) fun _ => trivial)) ?_
  rintro _ fs' ⟨rfl, hlock, hloaded, hsame, _⟩
  have hstill : Fs.Still fs (fs.lockInode ip) := .withInode fs ip _
  exact ⟨hnow.still_zero hlock.evolves hstill, .of_evolves hlock.evolves,
    ⟨hloaded, hsame.trans hinum⟩, hstill⟩

theorem wlp_iunlock_now (hnow : Fs.Now c v fs₀ fs) :
    wlp (iunlock ip) fs (fun _ fs' => Fs.Now c v fs₀ fs' ∧ Fs.Retains c fs fs') := by
  refine wlp_mono (wlp_iunlock ip) ?_
  rintro _ fs' ⟨rfl, hpos, _⟩
  have hev := (looks_unlockInode (hnow.ok.unlockInode hpos) c).evolves
  exact ⟨hnow.still_zero hev (.withInode fs ip _), .of_evolves hev⟩

section

variable (hnow : Fs.Now (h + one ip) v fs₀ fs)
include hnow

/-- Give a reference back that others outlive. -/
theorem wlp_iput_now (hnn : ∀ e, 0 ≤ h e) (hshel : fs.Shelters h) :
    wlp (iput ip) fs (fun _ fs' => Fs.Now h v fs₀ fs' ∧ Fs.Retains h fs fs') := by
  refine wlp_mono (wlp_iff_ends.mpr (ends_iput_free hnow.ok hnow.held
    (hnow.held.pos hnn) (Or.inr hshel))) ?_
  rintro _ fs' ⟨⟨hlooks, _⟩, hstill⟩
  exact ⟨(hnow.still hlooks.evolves (hstill hshel)).drop, .of_evolves hlooks.evolves⟩

theorem wlp_iunlockput_now (hshel : fs.Shelters h) :
    wlp (iunlockput ip) fs (fun _ fs' => Fs.Now h v fs₀ fs' ∧
      Fs.Retains h fs fs' ∧ Fs.Still fs fs') := by
  refine wlp_mono (wlp_iff_ends.mpr (ends_iunlockput_free hnow.ok hnow.held
    (Or.inr hshel) fun _ => trivial)) ?_
  rintro _ fs' ⟨⟨hlooks, _⟩, hstill⟩
  exact ⟨(hnow.still hlooks.evolves (hstill hshel)).drop, .of_evolves hlooks.evolves, hstill hshel⟩

/-- Give the only reference to an inode without links back. -/
theorem wlp_iunlockput_freed (hnn : ∀ e, 0 ≤ h e) (hhas : fs.Has ip x) (hlinks : (v x).links = 0)
    (hsole : ∀ e, 0 < h e → (fs.inode e).inum ≠ x) : wlp (iunlockput ip) fs (fun _ fs' =>
      Fs.Now h (Function.update v x .free) fs₀ fs' ∧ Fs.Retains h fs fs') := by
  unfold iunlockput
  refine wlp_seq (wlp_iunlock_now hnow) ?_
  rintro _ fs₁ ⟨hnow₁, hret₁⟩
  have hip := add_one_pos hnn ip
  have hhas₁ := hnow₁.has hret₁ hip hip hhas
  refine wlp_mono (wlp_and (wlp_of_ends (ends_iput hnow₁.ok ip))
    (wlp_of_ends (ends_iput_looks hnow₁.ok hnow₁.held hhas₁.loaded.ref))) ?_
  rintro _ fs₂ ⟨⟨hkept, _⟩ | ⟨_, _, hfreed⟩, hlooks, _⟩
  · refine (hkept ⟨?_, hhas₁.loaded.valid, ?_⟩).elim
    · have hzero : h ip = 0 := by
        refine le_antisymm (not_lt.mp fun hpos => ?_) (hnn ip)
        exact hsole ip hpos hhas.inum
      rw [hnow₁.counts, Pi.add_apply, hzero, one_self]
      rfl
    · rw [← hnow₁.links hhas₁, hlinks]
  · have hview := hfreed.view hnow₁.ok
    rw [hhas₁.inum, hnow₁.view] at hview
    exact ⟨(hnow₁.next hlooks.evolves hview (.freed hnow₁.ok hfreed)).drop,
      (hret₁.mono (le_add_one h ip)).trans (.of_evolves hlooks.evolves)⟩

end

section

variable (hnow : Fs.Now c v fs₀ fs)
include hnow

/-- A change of links, in memory and on disk. -/
theorem wlp_iupdate_now (hhas : fs.Has ip x) {change : Dinode → Dinode} (hshape : KeepsShape change)
    {links : UInt16} (hlinks : (change (fs.inode ip).copy).nlink = links) :
    wlp (iupdate ip) (fs.withCopy ip change) (fun _ fs' =>
      Fs.Now c (Function.update v x ((v x).withLinks links)) fs₀ fs' ∧
      Fs.Retains c fs fs' ∧ ∀ d, d ≠ x → (v d).kind ≠ 0 → (fs'.EntryFits d ↔ fs.EntryFits d)) := by
  refine wlp_iupdate_withCopy fun log => ?_
  have hev := hnow.ok.amend_evolves hhas.loaded hshape log c
  have hview := amend_view hnow.ok hhas.loaded hshape log
  refine ⟨hnow.next_zero hev ?_ (.amend hnow.ok hhas.loaded hshape log),
    .of_evolves hev, fun d hne hkind => ?_⟩
  · rw [hview, hhas.inum, hnow.view, hlinks]
  rw [← hnow.view] at hkind
  have hdisk : (fs.amend ip change log).disk =
      (fs.putInode x (change (fs.inode ip).copy) log).disk := by
    rw [← hhas.inum]
    rfl
  refine entryFits_putInode hnow.ok hkind (hhas.inum ▸ hhas.loaded.inum hnow.ok) hne ?_ rfl hdisk
  rw [hview, hhas.inum, Function.update_of_ne hne]

/-- The first entry with the name. -/
theorem wlp_dirlookup_now (hhas : fs.Has dp x) (name : Name) :
    wlp (dirlookup dp name) fs (fun found fs' => (v x).kind = T_DIR ∧
      ((found = none ∧ fs' = fs ∧ v.lookup x name = none) ∨
        ∃ ip off e, found = some (ip, off) ∧ v.lookup x name = some e ∧
          Fs.Now (c + one ip) v fs₀ fs' ∧ Fs.Retains c fs fs' ∧
          Fs.Still fs fs' ∧ (fs'.inode ip).inum = e.inum ∧ e.inum < fs₀.sb.ninodes)) := by
  refine wlp_mono (wlp_of_ends (ends_dirlookup hnow.ok hnow.held hhas.loaded name)) ?_
  unfold Fs.Searched
  rw [hhas.inum, hnow.view]
  rintro found fs' ⟨hdir, hnone | ⟨ip, off, rfl, hfound⟩⟩
  · exact ⟨by rw [hnow.kind hhas, hdir], Or.inl hnone⟩
  have hev := hfound.looks.evolves
  obtain ⟨e, hsome, hinum⟩ := hfound.entry
  rw [hhas.inum, hnow.view] at hsome
  exact ⟨by rw [hnow.kind hhas, hdir], Or.inr ⟨ip, _, e, rfl, hsome,
    hnow.still hev hfound.still, .of_evolves hev, hfound.still, hinum,
    hinum ▸ hnow.sb ▸ hfound.inum⟩⟩

/-- A new inode. -/
theorem wlp_ialloc_now (hold : ∀ x, (v x).kind = 0 → (fs₀.view x).kind = 0) {type : UInt16}
    (htype : type ≠ 0) : wlp (ialloc type) fs (fun found fs' =>
      (found = none ∧ fs' = fs ∧ ∀ x, x ≠ 0 → x < fs₀.sb.ninodes → (v x).kind ≠ 0) ∨
      ∃ ip x, found = some ip ∧ (fs'.inode ip).inum = x ∧ (v x).kind = 0 ∧
        x ≠ 0 ∧ x < fs₀.sb.ninodes ∧ Fs.Now (c + one ip)
          (Function.update v x ⟨type, 0, []⟩) fs₀ fs' ∧ Fs.Retains c fs fs' ∧
        ∀ d, (v d).kind ≠ 0 → (fs'.EntryFits d ↔ fs.EntryFits d)) := by
  intro found fs' hrun
  have hsteps : wlp (ialloc type) fs (fun found fs' =>
      (found = none → fs.firstFreeInode = none) ∧ ∀ ip, found = some ip →
        ∃ x log, fs.firstFreeInode = some x ∧
          iget x (fs.putInode x (.fresh type) log) = .ok (ip, fs')) := by
    unfold ialloc
    rw [wlp_bind, wlp_read]
    cases hfree : fs.firstFreeInode with
    | none => exact (wlp_pure none).mpr ⟨fun _ => rfl, by simp⟩
    | some x =>
      simp only [writeDinode, wlp_bind, wlp_read, wlp_logWrite]
      intro log _ ip fs' hget
      rw [wlp_pure]
      refine ⟨by simp, ?_⟩
      rintro ip' heq
      cases heq
      exact ⟨x, log, rfl, hget⟩
  rcases wlp_ialloc hnow.ok hnow.held type found fs' hrun with ⟨hnone, hsame⟩ |
    ⟨ip, rfl, hev, _, _, _, _⟩
  · refine Or.inl ⟨hnone, hsame, fun x hx hlt hzero => ?_⟩
    have hall := List.find?_eq_none.mp ((hsteps _ _ hrun).1 hnone) x
      (List.mem_range.mpr (by rwa [hnow.sb]))
    rw [← hnow.view, view_kind (by rwa [hnow.sb])] at hzero
    exact hall (decide_eq_true ⟨Nat.pos_of_ne_zero hx, hzero⟩)
  refine Or.inr ?_
  obtain ⟨x, log, hfree, hget⟩ := (hsteps _ _ hrun).2 ip rfl
  have hmem := List.mem_range.mp (List.mem_of_find?_eq_some hfree)
  have hsat := List.find?_some hfree
  rw [decide_eq_true_eq] at hsat
  have hstill := Fs.Still.iget hget
  have hview : fs'.view = Function.update v x ⟨type, 0, []⟩ := by
    rw [hstill.view, ialloc_view hnow.ok htype hfree log, hnow.view]
  have hzero : (v x).kind = 0 := by
    rw [← hnow.view, view_kind hmem]
    exact hsat.2
  have hspares : Fs.Spares fs₀.view fs fs' :=
    (Fs.Spares.ialloc hnow.ok hfree (hold x hzero) log).trans (.of_disk hstill.disk hstill.sb)
  refine ⟨ip, x, rfl, (iget_self hget).1, hzero, by omega,
    by rwa [← hnow.sb], hnow.next hev hview hspares, .of_evolves hev, fun d hkind => ?_⟩
  have hne : d ≠ x := by
    rintro rfl
    exact hkind hzero
  refine entryFits_putInode hnow.ok (hnow.view ▸ hkind) hmem hne ?_ hev.sb hstill.disk
  rw [hview, Function.update_of_ne hne, hnow.view]

/-- A write of one entry to a directory: all of it or nothing. -/
theorem wlp_writei_entry (hhas : fs.Has dp x) (hdir : (v x).kind = T_DIR) (de : Bytes) (k : Nat)
    (hde : direntInum de < fs₀.sb.ninodes) :
    wlp (writei dp (.kernel de) (DIRENT * k) DIRENT) fs (fun written fs' =>
      Fs.Retains c fs fs' ∧ (written = some DIRENT ↔ DIRENT * k ≤ (fs.inode dp).copy.size.toNat ∧
          fs.PlaceFits (fs.inode dp).copy k) ∧
        ((written ≠ some DIRENT ∧ Fs.Now c v fs₀ fs') ∨ (written = some DIRENT ∧
            Fs.Now c (v.enter x k (entryOf de)) fs₀ fs'))) := by
  have hwork := hnow.ok.working hhas.loaded.ref hhas.loaded.valid
  have htype : (fs.inode dp).copy.type = T_DIR := by
    rw [← hnow.kind hhas, hdir]
  have hwrite : fs.WriteOk dp (.kernel de) (DIRENT * k) DIRENT := by
    intro _
    refine ⟨rfl, ⟨k, rfl⟩, Buffer.kernel_total _, ?_⟩
    rw [hnow.sb]
    exact hde
  refine wlp_mono (wlp_and (wlp_writei hwork (.kernel de) (DIRENT * k)
    (by decide)) (wlp_writei_told hwork de k)) ?_
  rintro written fs' ⟨⟨rfl, rfl⟩ | ⟨t, rfl, hwrote⟩, hfits⟩
  · exact ⟨.refl c fs', hfits, Or.inl ⟨by simp, hnow⟩⟩
  have hev := hwrote.evolves hnow.ok hhas.loaded hwrite c
  refine ⟨.of_evolves hev, hfits, ?_⟩
  have hview := hwrote.view hnow.ok hhas.loaded htype (Buffer.kernel_total _)
  rw [hhas.inum, hnow.view] at hview
  have hspares : Fs.Spares fs₀.view fs fs' :=
    .wrote hnow.ok hhas.loaded htype hwrote
  rcases hview with ⟨rfl, hview⟩ | ⟨rfl, _, hview⟩
  · exact Or.inl ⟨by decide, hnow.next_zero hev hview hspares⟩
  · exact Or.inr ⟨rfl, hnow.next_zero hev hview hspares⟩

/-- A new entry, or none: the name may be there, or the disk full. -/
theorem wlp_dirlink_now (hnn : ∀ e, 0 ≤ c e) (hshel : fs.Shelters c) (hhas : fs.Has dp x)
    (name : Name) {inum : Nat} (hlt : inum < fs₀.sb.ninodes) :
    wlp (dirlink dp name inum) fs (fun linked fs' => Fs.Retains c fs fs' ∧
      (linked = true ↔ v.lookup x name = none ∧ fs.EntryFits x) ∧
      ((linked = false ∧ Fs.Now c v fs₀ fs') ∨
        (linked = true ∧ ∃ k e, Fs.Now c (v.enter x k e) fs₀ fs'))) := by
  unfold dirlink
  refine wlp_seq (wlp_dirlookup_now hnow hhas name) ?_
  rintro found fs₁ ⟨hdir, ⟨rfl, rfl, hnone⟩ | ⟨ip, off, e, rfl, hsome, hnow₁, hret₁, hstill₁, _, _⟩⟩
  · have htype : (fs₁.inode dp).copy.type = T_DIR := by
      rw [← hnow.kind hhas, hdir]
    dsimp only
    rw [wlp_bind, wlp_read]
    refine wlp_seq (wlp_dirlinkFrom hnow.ok hhas.loaded htype
      ((fs₁.inode dp).copy.size.toNat + 1) 0 (by omega)) ?_
    rintro off fs₂ ⟨rfl, rfl⟩
    rw [List.drop_zero, Nat.zero_add, hhas.inum, hnow.view]
    have hread : direntInum (dirent name inum) < fs₀.sb.ninodes := by
      rw [direntInum_dirent]
      exact Nat.lt_of_le_of_lt (Nat.mod_le _ _) hlt
    refine wlp_seq (wlp_writei_entry hnow hhas hdir (dirent name inum) (v.place x) hread) ?_
    rintro written fs₃ ⟨hret, htold, hwritten⟩
    rw [wlp_pure]
    refine ⟨hret, ?_, ?_⟩
    · have hnode := hnow.ok.view_node hhas.loaded
      rw [hhas.inum, hnow.view] at hnode
      have hsync := hhas.loaded.sync hnow.ok
      rw [hhas.inum] at hsync
      rw [decide_eq_true_eq, htold, and_iff_right (place_le hnode htype),
        and_iff_right hnone, Fs.EntryFits, hnow.view, hsync]
    rcases hwritten with ⟨hshort, hnow₃⟩ | ⟨hwhole, hnow₃⟩
    · exact Or.inl ⟨decide_eq_false hshort, hnow₃⟩
    · exact Or.inr ⟨decide_eq_true hwhole, _, _, hnow₃⟩
  · dsimp only
    refine wlp_seq (wlp_iput_now hnow₁ hnn
      ((Fs.Covers.retains hshel hret₁ fun _ he => he).shelters_same hstill₁.view
        fun _ => Int.le_refl _)) ?_
    rintro _ fs₂ ⟨hnow₂, hret₂⟩
    refine (wlp_pure _).mpr ⟨hret₁.trans hret₂, ⟨nofun, fun ⟨hno, _⟩ => ?_⟩, Or.inl ⟨rfl, hnow₂⟩⟩
    rw [hsome] at hno
    cases hno

end

/-- Every reference is to an allocated inode. -/
def Fs.Alive (c : InodeRef → Int) (fs : Fs) : Prop :=
  ∀ e, 0 < c e → (fs.view (fs.inode e).inum).kind ≠ 0

/-- Where a path leads. -/
theorem wlp_namex_now (hnow : Fs.Now c v fs₀ fs) (hnn : ∀ e, 0 ≤ c e) (hshel : fs.Shelters c)
    {cwd : Option InodeRef}
    (hcwd : ∀ ip, cwd = some ip → 0 < c ip ∧ (fs.view (fs.inode ip).inum).kind ≠ 0) (path : Name)
    (parent : Bool) : wlp (namex cwd path parent) fs (fun found fs' => Fs.Retains c fs fs' ∧
      Fs.Still fs fs' ∧ ((found = none ∧ Fs.Now c v fs₀ fs' ∧ fs.resolve cwd path parent = none) ∨
        ∃ ip x name, found = some (ip, name) ∧ Fs.Now (c + one ip) v fs₀ fs' ∧
          (fs'.inode ip).inum = x ∧ x < fs₀.sb.ninodes ∧
          fs.resolve cwd path parent = some (x, name))) := by
  have hcwdOk : fs.CwdOk cwd := fun ip heq =>
    ⟨by rw [hnow.counts]; exact (hcwd ip heq).1, lt_of_view_kind (hcwd ip heq).2⟩
  refine wlp_mono (wlp_of_ends (ends_namex hnow.ok hnn hnow.held hcwdOk path parent)) ?_
  rintro found fs' ⟨hleads, hagrees⟩
  obtain ⟨hstill, hresult⟩ := hagrees hshel
  rcases hleads with ⟨rfl, hmiss⟩ | ⟨ip, name, rfl, hnamed⟩
  · have hev := hmiss.looks.evolves
    exact ⟨.of_evolves hev, hstill, Or.inl ⟨rfl, hnow.still_zero hev hstill, hresult.symm⟩⟩
  · have hev := hnamed.looks.evolves
    exact ⟨.of_evolves hev, hstill, Or.inr ⟨ip, _, name, rfl,
      hnow.still hev hstill, rfl, hnow.sb ▸ hnamed.inum, hresult.symm⟩⟩

end Now

end CkptKernel
