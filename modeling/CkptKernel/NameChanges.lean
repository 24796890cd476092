/-
The calls on names, from one state without a call in progress to the next: those
that fail leave the tree of names as it was.
-/
import CkptKernel.NameEffects

namespace CkptKernel

open ByteMem Code
open Function (update_of_ne update_self)

namespace View

variable {v : View} {d k x y : Nat} {e : Entry}

theorem enter_kind : (v.enter d k e y).kind = (v y).kind := by
  unfold enter
  by_cases heq : y = d
  · rw [heq, update_self, Node.put]
  · rw [update_of_ne heq]

theorem enter_links : (v.enter d k e y).links = (v y).links := by
  unfold enter
  by_cases heq : y = d
  · rw [heq, update_self, Node.put]
  · rw [update_of_ne heq]

end View

/-- The references to each inode. -/
def Fs.refs (fs : Fs) : InodeRef → Int := fun e => (fs.inode e).ref

/-- A state with no call in progress: whoever has a reference keeps an
allocated inode, and whatever has no link is kept by somebody. -/
structure Fs.Settled (fs : Fs) : Prop where
  ok : fs.Ok
  shelters : fs.Shelters fs.refs
  alive : fs.Alive fs.refs
  /-- Inode 0 stands for none. -/
  zero : (fs.view 0).kind = 0
  /-- An inode number fits a directory entry. -/
  small : fs.sb.ninodes ≤ 2 ^ 16

section Calls

variable {c h : InodeRef → Int} {v : View} {fs₀ fs fs' : Fs}
  {ip dp : InodeRef} {x d : Nat} {type : UInt16} {cwd : Option InodeRef}

namespace Fs.Settled

variable (hset : fs.Settled)
include hset

theorem start : Fs.Now fs.refs fs.view fs fs :=
  ⟨hset.ok, rfl, fun _ => rfl, rfl, .refl _ fs⟩

theorem nonneg (e : InodeRef) : 0 ≤ fs.refs e :=
  hset.ok.ref e

theorem covers (hret : Fs.Retains fs.refs fs fs') : fs'.Covers fs.refs fs.view :=
  Fs.Covers.retains hset.shelters hret fun _ he => he

/-- The tree is as it was, so everything without links is still held. -/
theorem shelters_same (hret : Fs.Retains fs.refs fs fs') (hnow : Fs.Now c fs.view fs fs')
    (hle : ∀ e, fs.refs e ≤ h e) : fs'.Shelters h :=
  (hset.covers hret).shelters_same hnow.view hle

theorem cwd_alive (hcwd : ∀ ip, cwd = some ip → 0 < fs.refs ip) (ip : InodeRef)
    (heq : cwd = some ip) : 0 < fs.refs ip ∧ (fs.view (fs.inode ip).inum).kind ≠ 0 :=
  ⟨hcwd ip heq, hset.alive ip (hcwd ip heq)⟩

end Fs.Settled

/-! ### Create -/

theorem le_add_two (h : InodeRef → Int) (ip dp e : InodeRef) : h e ≤ (h + one ip + one dp) e :=
  Int.le_trans (le_add_one h ip e) (le_add_one _ dp e)

section

variable (hnow : Fs.Now c v fs₀ fs) (hnn : ∀ e, 0 ≤ c e) (hshel : fs.Shelters c)
include hnow hnn hshel

/-- A name in node `x` changes its entries only. -/
theorem wlp_dirlink_self (hip : fs.Has ip x) (name : Name) {inum : Nat}
    (hlt : inum < fs₀.sb.ninodes) :
    wlp (dirlink ip name inum) fs (fun _ fs' => Fs.Retains c fs fs' ∧
      ∃ node : Node, node.kind = (v x).kind ∧ node.links = (v x).links ∧
        Fs.Now c (Function.update v x node) fs₀ fs') := by
  refine wlp_mono (wlp_dirlink_now hnow hnn hshel hip name hlt) ?_
  rintro _ fs' ⟨hret, _, ⟨_, hnow'⟩ | ⟨_, k, e, hnow'⟩⟩
  · refine ⟨hret, v x, rfl, rfl, ?_⟩
    rwa [Function.update_eq_self]
  · exact ⟨hret, (v x).put k e (v x).links, rfl, rfl, hnow'⟩

omit hnn in
/-- No inode loses its links where node `x` changes its entries only. -/
theorem Fs.Now.shelters {node : Node} (hret : Fs.Retains c fs fs') (hkind : node.kind = (v x).kind)
    (hlinks : node.links = (v x).links) (hnow' : Fs.Now c (Function.update v x node) fs₀ fs') :
    fs'.Shelters c := by
  refine (Fs.Covers.retains hshel hret fun _ he => he).shelters rfl (fun _ => Int.le_refl _)
    fun y hy hzero => Or.inl ?_
  rw [hnow'.view] at hy hzero
  rw [hnow.view]
  by_cases heq : y = x
  · subst heq
    rw [update_self] at hy hzero
    exact ⟨hkind ▸ hy, hlinks ▸ hzero⟩
  · rw [update_of_ne heq] at hy hzero
    exact ⟨hy, hzero⟩

theorem wlp_createDots_now (hdp : fs.Has dp d) (hip : fs.Has ip x) (hc : 0 < c ip) :
    wlp (createDots dp ip type) fs (fun dots fs' => Fs.Retains c fs fs' ∧
      (type ≠ T_DIR → dots = true ∧ fs' = fs) ∧
      ∃ node : Node, node.kind = (v x).kind ∧ node.links = (v x).links ∧
        Fs.Now c (Function.update v x node) fs₀ fs') := by
  unfold createDots
  rw [wlp_bind, wlp_read, wlp_ite]
  split
  next hdir =>
    rw [wlp_bind, hip.inum, hdp.inum]
    refine wlp_mono (wlp_dirlink_self hnow hnn hshel hip dotName (hnow.lt hip)) ?_
    rintro dot fs₁ ⟨hret₁, node₁, hkind₁, hlinks₁, hnow₁⟩
    rw [wlp_ite]
    split
    · have hshel₁ := hnow.shelters hshel hret₁ hkind₁ hlinks₁ hnow₁
      refine wlp_mono (wlp_dirlink_self hnow₁ hnn hshel₁
        (hnow₁.has hret₁ hc hc hip) dotdotName (hnow.lt hdp)) ?_
      rintro dotdot fs₂ ⟨hret₂, node₂, hkind₂, hlinks₂, hnow₂⟩
      rw [update_self] at hkind₂ hlinks₂
      rw [Function.update_idem] at hnow₂
      exact ⟨hret₁.trans hret₂, fun hfile => (hfile hdir).elim, node₂,
        hkind₂.trans hkind₁, hlinks₂.trans hlinks₁, hnow₂⟩
    · exact (wlp_pure _).mpr ⟨hret₁, fun hfile => (hfile hdir).elim, node₁, hkind₁, hlinks₁, hnow₁⟩
  · refine (wlp_pure _).mpr ⟨.refl c fs, fun _ => ⟨rfl, rfl⟩, v x, rfl, rfl, ?_⟩
    rwa [Function.update_eq_self]

theorem wlp_createEntries_now (hdp : fs.Has dp d) (hip : fs.Has ip x) (hdpc : 0 < c dp)
    (hipc : 0 < c ip) (hne : d ≠ x) (name : Name) :
    wlp (createEntries dp ip name type) fs (fun linked fs' =>
      Fs.Retains c fs fs' ∧ (type ≠ T_DIR → (linked = true ↔
        v.lookup d name = none ∧ fs.EntryFits d)) ∧
      ∃ node : Node, node.kind = (v x).kind ∧ node.links = (v x).links ∧
        ((linked = false ∧ Fs.Now c (Function.update v x node) fs₀ fs') ∨
          (linked = true ∧ ∃ k e, Fs.Now c
            (View.enter (Function.update v x node) d k e) fs₀ fs'))) := by
  unfold createEntries
  refine wlp_seq (wlp_createDots_now hnow hnn hshel hdp hip hipc) ?_
  rintro dots fs₁ ⟨hret, hnodots, node, hkind, hlinks, hnow₁⟩
  rw [wlp_bind, wlp_read, wlp_ite]
  split
  · have hshel₁ := hnow.shelters hshel hret hkind hlinks hnow₁
    have hip₁ := hnow₁.has hret hipc hipc hip
    rw [hip₁.inum]
    refine wlp_mono (wlp_dirlink_now hnow₁ hnn hshel₁
      (hnow₁.has hret hdpc hdpc hdp) name (hnow.lt hip)) ?_
    rintro linked fs₂ ⟨hret', htold, hlinked⟩
    refine ⟨hret.trans hret', fun htype => ?_, node, hkind, hlinks, hlinked⟩
    rw [View.lookup, update_of_ne hne, (hnodots htype).2] at htold
    exact htold
  next hfail =>
    exact (wlp_pure _).mpr ⟨hret, fun htype => (hfail (hnodots htype).1).elim,
      node, hkind, hlinks, Or.inl ⟨rfl, hnow₁⟩⟩

end

/-- A new file is there, and the caller has its inode. -/
structure Fs.Made (h : InodeRef → Int) (type : UInt16) (ip : InodeRef) (x : Nat)
    (v' : View) (fs₀ fs' : Fs) : Prop where
  now : Fs.Now (h + one ip) v' fs₀ fs'
  shelters : fs'.Shelters h
  has : fs'.Has ip x
  kind : (v' x).kind = type

/-- `create` after `ialloc`: the new inode gets its name, or it is freed
again. -/
theorem wlp_createLink_now
    (hnow : Fs.Now (h + one ip + one dp) (Function.update v x ⟨type, 0, []⟩) fs₀ fs)
    (hnn : ∀ e, 0 ≤ h e) (hcov : fs.Covers h v)
    (halive : ∀ e, 0 < h e → (v (fs.inode e).inum).kind ≠ 0) (hfree : v x = .free)
    (hdp : fs.Has dp d) (hnum : (fs.inode ip).inum = x) (hne : d ≠ x) (hin : x < fs₀.sb.ninodes)
    (name : Name) (major minor : UInt16) :
    wlp (createLink dp ip name type major minor) fs (fun found fs' =>
      (type ≠ T_DIR → (found ≠ none ↔ v.lookup d name = none ∧ fs.EntryFits d)) ∧
      ((found = none ∧ Fs.Now h v fs₀ fs') ∨ (found = some ip ∧
        (type ≠ T_DIR → ∃ v', Fs.Made h type ip x v' fs₀ fs')))) := by
  have hnn₁ := add_one_nonneg hnn ip
  have hle := le_add_two h ip dp
  have hdpc : 0 < (h + one ip + one dp) dp := add_one_pos hnn₁ dp
  have hipc : 0 < (h + one ip + one dp) ip :=
    Int.lt_of_lt_of_le (add_one_pos hnn ip) (le_add_one _ dp ip)
  unfold createLink
  refine wlp_seq (wlp_ilock_now hnow hnum hin) ?_
  rintro _ fs₁ ⟨hnow₁, hret₁, hip₁, hstill₁⟩
  rw [wlp_bind, wlp_setCopy, wlp_bind]
  have hshape : KeepsShape (fun dn => { dn with
      major := major, minor := minor, nlink := 1 }) := fun _ => ⟨rfl, rfl, rfl⟩
  refine wlp_mono (wlp_iupdate_now hnow₁ hip₁ hshape rfl) ?_
  rintro _ fs₂ ⟨hnow₂, hret₂, hfits₂⟩
  have hret₁₂ := hret₁.trans hret₂
  rw [update_self, Function.update_idem, Node.withLinks] at hnow₂
  have hip₂ := hnow₂.has hret₂ hipc hipc hip₁
  have hdp₂ := hnow₂.has hret₁₂ hdpc hdpc hdp
  -- the new inode has a link, the others are as they were
  have hstray : ∀ {node : Node} {y : Nat}, node.links = 1 → (Function.update v x node y).kind ≠ 0 →
      (Function.update v x node y).links = 0 → (v y).kind ≠ 0 ∧ (v y).links = 0 := by
    intro node y hlinks hy hzero
    by_cases heq : y = x
    · rw [heq, update_self, hlinks] at hzero
      exact absurd hzero (by simp)
    · rw [update_of_ne heq] at hy hzero
      exact ⟨hy, hzero⟩
  have hshel₂ : fs₂.Shelters (h + one ip + one dp) :=
    (hcov.retains hret₁₂ fun e he => Int.lt_of_lt_of_le he (hle e)).shelters hnow₂.view hle
      fun y hy hzero => Or.inl (hstray rfl hy hzero)
  refine wlp_seq (wlp_createEntries_now hnow₂ (add_one_nonneg hnn₁ dp)
    hshel₂ hdp₂ hip₂ hdpc hipc hne name) ?_
  rintro linked fs₃ ⟨hret₃, htold, node, hkind, hlinks, hlinked⟩
  rw [update_self] at hkind hlinks
  rw [Function.update_idem] at hlinked
  have hfits : type ≠ T_DIR → (linked = true ↔ v.lookup d name = none ∧ fs.EntryFits d) := by
    intro hfile
    have halloc := hnow.alloc hdp
    rw [htold hfile, View.lookup, update_of_ne hne, hfits₂ d hne halloc, entryFits_still hstill₁]
    rfl
  have hret := hret₁₂.trans hret₃
  rw [wlp_ite]
  rcases hlinked with ⟨rfl, hnow₃⟩ | ⟨rfl, k, e, hnow₃⟩
  · -- the inode loses its link and is freed
    rw [if_neg (by decide)]
    have hip₃ := hnow₃.has hret₃ hipc hipc hip₂
    rw [wlp_bind, wlp_setCopy]
    refine wlp_seq (wlp_iupdate_now hnow₃ hip₃ (keepsShape_nlink fun _ => 0) rfl) ?_
    rintro _ fs₄ ⟨hnow₄, hret₄, _⟩
    rw [update_self, Function.update_idem, add_right_comm] at hnow₄
    have hret' := hret.trans hret₄
    have hdp₄ := hnow₄.has hret' hdpc (by rwa [add_right_comm]) hdp
    have hsole : ∀ e, 0 < (h + one dp) e → (fs₄.inode e).inum ≠ x := by
      intro e he
      by_cases heq : e = dp
      · rw [heq, hdp₄.inum]
        exact hne
      · rw [Pi.add_apply, one_of_ne heq, add_zero] at he
        rw [hret'.inum e (Int.lt_of_lt_of_le he (hle e))]
        rintro rfl
        exact halive e he (by rw [hfree]; rfl)
    refine wlp_seq (wlp_iunlockput_freed hnow₄ (add_one_nonneg hnn dp)
      (hnow₄.has hret₄ hipc (by rwa [add_right_comm]) hip₃)
      (by rw [update_self]; rfl) hsole) ?_
    rintro _ fs₅ ⟨hnow₅, hret₅⟩
    rw [Function.update_idem, ← hfree, Function.update_eq_self] at hnow₅
    have hret₅' := (hret'.mono hle).trans (hret₅.mono (le_add_one h dp))
    refine wlp_seq (wlp_iunlockput_now hnow₅
      ((hcov.retains hret₅' fun _ he => he).shelters_same hnow₅.view fun _ => Int.le_refl _)) ?_
    rintro _ fs₆ ⟨hnow₆, _, _⟩
    refine (wlp_pure _).mpr ⟨fun hfile => ?_, Or.inl ⟨rfl, hnow₆⟩⟩
    rw [← hfits hfile]
    simp
  · -- what becomes of the parent of a new directory does not matter here
    rw [if_pos rfl, wlp_bind, Code.when, wlp_ite]
    split
    next hdir =>
      intro _ fs₄ _
      rw [wlp_bind]
      exact fun _ fs₅ _ => (wlp_pure _).mpr ⟨fun hfile => (hfile hdir).elim,
        Or.inr ⟨rfl, fun hfile => (hfile hdir).elim⟩⟩
    next hfile =>
      have hip₃ := hnow₃.has hret₃ hipc hipc hip₂
      have hcov₃ := hcov.retains hret fun e he => Int.lt_of_lt_of_le he (hle e)
      have hshel₃ : fs₃.Shelters (h + one ip) := by
        refine hcov₃.shelters hnow₃.view (le_add_one h ip) fun y hy hzero => Or.inl ?_
        rw [View.enter_kind] at hy
        rw [View.enter_links] at hzero
        exact hstray hlinks hy hzero
      rw [wlp_pure]
      refine wlp_seq (wlp_iunlockput_now hnow₃ hshel₃) ?_
      rintro _ fs₄ ⟨hnow₄, hret₄, _⟩
      have hret' := (hret.mono hle).trans (hret₄.mono (le_add_one h ip))
      refine (wlp_pure _).mpr ⟨fun _ => ?_, Or.inr ⟨rfl, fun _ => ⟨_, hnow₄,
        ?_, hnow₄.has hret₄ (add_one_pos hnn ip) (add_one_pos hnn ip) hip₃, ?_⟩⟩⟩
      · rw [← hfits hfile]
        simp
      · refine (hcov.retains hret' fun _ he => he).shelters hnow₄.view
          (fun _ => Int.le_refl _) fun y hy hzero => Or.inl ?_
        rw [View.enter_kind] at hy
        rw [View.enter_links] at hzero
        exact hstray hlinks hy hzero
      · rw [View.enter_kind, update_self, hkind]

/-- A file can be created: its name is not there, and there are an inode and
room in the directory for it. -/
structure Fs.CanAdd (fs : Fs) (d : Nat) (name : Name) : Prop where
  new : fs.view.lookup d name = none
  inode : ∃ x, x ≠ 0 ∧ x < fs.sb.ninodes ∧ (fs.view x).kind = 0
  fits : fs.EntryFits d

/-- What `create` returns for a path to directory `d` and a name: an inode that
was there, or one that was free. -/
def Fs.Creates (fs : Fs) (type : UInt16) (d : Nat) (name : Name) (ip : InodeRef)
    (fs' : Fs) : Prop :=
  ∃ x v', Fs.Made fs.refs (v' x).kind ip x v' fs fs' ∧
    ((fs.view.lookup d name ≠ none ∧ v' = fs.view) ∨
      (fs.CanAdd d name ∧ (fs.view x).kind = 0 ∧ (v' x).kind = type))

theorem wlp_create_now (hset : fs.Settled) (hcwd : ∀ ip, cwd = some ip → 0 < fs.refs ip)
    (path : Name) (htype : type ≠ 0) (major minor : UInt16) :
    wlp (create cwd path type major minor) fs (fun found fs' =>
      (found = none ∧ Fs.Now fs.refs fs.view fs fs' ∧
          (type ≠ T_DIR → ∀ d name, fs.resolve cwd path true =
            some (d, name) → ¬fs.CanAdd d name)) ∨ ∃ ip d name, found = some ip ∧
          fs.resolve cwd path true = some (d, name) ∧
          (type ≠ T_DIR → fs.Creates type d name ip fs')) := by
  have hnn := hset.nonneg
  unfold create nameiparent
  refine wlp_seq (wlp_namex_now hset.start hnn hset.shelters (hset.cwd_alive hcwd) path true) ?_
  rintro found fs₁ ⟨hret₁, hstill₁, ⟨rfl, hnow₁, hnone⟩ |
    ⟨dp, d, name, rfl, hnow₁, hnum, hin, htarget⟩⟩
  · refine (wlp_pure _).mpr (Or.inl ⟨rfl, hnow₁, fun _ d name heq => ?_⟩)
    rw [hnone] at heq
    cases heq
  have hno : ∀ {P : Prop}, (fs.CanAdd d name → P) → ∀ d' name',
      fs.resolve cwd path true = some (d', name') → fs.CanAdd d' name' → P := by
    intro P hnot d' name' heq
    rw [htarget] at heq
    cases heq
    exact hnot
  dsimp only
  refine wlp_seq (wlp_ilock_now hnow₁ hnum hin) ?_
  rintro _ fs₂ ⟨hnow₂, hret₂, hdp, hstill₂⟩
  have hret₁₂ := hret₁.trans (hret₂.mono (le_add_one _ dp))
  have hdpc : 0 < (fs.refs + one dp) dp := add_one_pos hnn dp
  refine wlp_seq (wlp_dirlookup_now hnow₂ hdp name) ?_
  rintro entry fs₃ ⟨_, ⟨rfl, rfl, hnone⟩ | ⟨ip, off, e, rfl, hsome, hnow₃,
    hret₃, hstill₃, hinum, hein⟩⟩
  · -- a new inode
    dsimp only
    refine wlp_seq (wlp_ialloc_now hnow₂ (fun _ hzero => hzero) htype) ?_
    rintro found fs₄ (⟨rfl, rfl, hfull⟩ | ⟨ip, x, rfl, hinum, hfree, hx, hxin,
      hnow₄, hret₄, hfits₄⟩)
    · dsimp only
      refine wlp_seq (wlp_iunlockput_now hnow₂ (hset.shelters_same hret₁₂ hnow₂
        fun _ => Int.le_refl _)) ?_
      rintro _ fs₅ ⟨hnow₅, _, _⟩
      refine (wlp_pure _).mpr (Or.inl ⟨rfl, hnow₅, fun _ => hno fun hadd => ?_⟩)
      obtain ⟨x, hx, hlt, hzero⟩ := hadd.inode
      exact hfull x hx hlt hzero
    dsimp only
    have hret₁₄ := hret₁₂.trans (hret₄.mono (le_add_one _ dp))
    rw [add_right_comm] at hnow₄
    have hne : d ≠ x := by
      rintro rfl
      exact hnow₂.alloc hdp hfree
    have hdp₄ : fs₄.Has dp d := by
      refine hnow₄.has hret₄ hdpc ?_ hdp
      exact add_one_pos (add_one_nonneg hnn ip) dp
    refine wlp_mono (wlp_createLink_now hnow₄ hnn (hset.covers hret₁₄) ?_
      (view_free hfree) hdp₄ hinum hne hxin name major minor) ?_
    · intro e he
      rw [hret₁₄.inum e he]
      exact hset.alive e he
    rintro found fs₅ ⟨htold, hfound⟩
    have hadd : type ≠ T_DIR → (found ≠ none ↔ fs.CanAdd d name) := by
      intro hfile
      rw [htold hfile, hfits₄ d (hnow₂.alloc hdp), entryFits_still hstill₂, entryFits_still hstill₁]
      exact ⟨fun ⟨hnew, hfits⟩ => ⟨hnew, ⟨x, hx, hxin, hfree⟩, hfits⟩,
        fun hadd => ⟨hadd.new, hadd.fits⟩⟩
    rcases hfound with ⟨rfl, hnow₅⟩ | ⟨rfl, hmade⟩
    · exact Or.inl ⟨rfl, hnow₅, fun hfile => hno fun hcan =>
        (hadd hfile).mpr hcan rfl⟩
    · refine Or.inr ⟨ip, d, name, rfl, htarget, fun hfile => ?_⟩
      obtain ⟨v', hmade⟩ := hmade hfile
      have hkind := hmade.kind
      exact ⟨x, v', hkind.symm ▸ hmade, Or.inr ⟨(hadd hfile).mp nofun, hfree, hkind⟩⟩
  · -- the name is there already
    dsimp only
    rw [wlp_bind]
    have hret₁₃ := hret₁₂.trans (hret₃.mono (le_add_one _ dp))
    have hshel₃ := hset.shelters_same hret₁₃ hnow₃ (le_add_one _ ip)
    rw [add_right_comm] at hnow₃
    refine wlp_mono (wlp_iunlockput_now hnow₃ hshel₃) ?_
    rintro _ fs₄ ⟨hnow₄, hret₄, _⟩
    have hret₁₄ := hret₁₃.trans (hret₄.mono (le_add_one _ ip))
    have hinum₄ : (fs₄.inode ip).inum = e.inum := by
      rw [hret₄.inum ip (add_one_pos hnn ip), hinum]
    refine wlp_seq (wlp_ilock_now hnow₄ hinum₄ hein) ?_
    rintro _ fs₅ ⟨hnow₅, hret₅, hip₅, _⟩
    have hshel₅ := hset.shelters_same (hret₁₄.trans (hret₅.mono
      (le_add_one _ ip))) hnow₅ fun _ => Int.le_refl _
    have hold : fs.view.lookup d name ≠ none := by
      rw [hsome]
      nofun
    rw [wlp_bind, wlp_read, wlp_ite]
    split
    · exact (wlp_pure _).mpr (Or.inr ⟨ip, d, name, rfl, htarget, fun _ =>
        ⟨e.inum, fs.view, ⟨hnow₅, hshel₅, hip₅, rfl⟩, Or.inl ⟨hold, rfl⟩⟩⟩)
    · refine wlp_seq (wlp_iunlockput_now hnow₅ hshel₅) ?_
      rintro _ fs₆ ⟨hnow₆, _, _⟩
      exact (wlp_pure _).mpr (Or.inl ⟨rfl, hnow₆, fun _ => hno fun hadd =>
        hold hadd.new⟩)

/-- Where a path without a parent leads. -/
theorem wlp_namei_now (hset : fs.Settled) (hcwd : ∀ ip, cwd = some ip → 0 < fs.refs ip)
    (path : Name) : wlp (namei cwd path) fs (fun found fs' => Fs.Retains fs.refs fs fs' ∧
      ((found = none ∧ Fs.Now fs.refs fs.view fs fs') ∨
        ∃ ip x, found = some ip ∧ Fs.Now (fs.refs + one ip) fs.view fs fs' ∧
          (fs'.inode ip).inum = x ∧ x < fs.sb.ninodes)) := by
  unfold namei
  refine wlp_seq (wlp_namex_now hset.start hset.nonneg hset.shelters
    (hset.cwd_alive hcwd) path false) ?_
  rintro found fs₁ ⟨hret, _, ⟨rfl, hnow, _⟩ |
    ⟨ip, x, name, rfl, hnow, hnum, hin, _⟩⟩
  · exact (wlp_pure _).mpr ⟨hret, Or.inl ⟨rfl, hnow⟩⟩
  · exact (wlp_pure _).mpr ⟨hret, Or.inr ⟨ip, x, rfl, hnow, hnum, hin⟩⟩

/-! ### Link -/

/-- One link more. -/
def View.relinked (v : View) (x : Nat) : View :=
  Function.update v x ((v x).withLinks ((v x).links + 1))

section

variable (hset : fs₀.Settled) (hnow : Fs.Now (fs₀.refs + one ip) (fs₀.view.relinked x) fs₀ fs)
  (hret : Fs.Retains fs₀.refs fs₀ fs) (hip : fs.Has ip x)
include hset hnow hret hip

/-- The label `bad` of `sys_link` takes the link away again. -/
theorem wlp_linkBad_now : wlp (linkBad ip) fs (fun _ fs' => Fs.Now fs₀.refs fs₀.view fs₀ fs') := by
  unfold linkBad
  refine wlp_seq (wlp_ilock_now hnow hip.inum (hnow.lt hip)) ?_
  rintro _ fs₁ ⟨hnow₁, hret₁, hip₁, _⟩
  rw [wlp_bind, wlp_setCopy, wlp_bind]
  have hnlink := hnow₁.links hip₁
  refine wlp_mono (wlp_iupdate_now hnow₁ hip₁ (keepsShape_nlink (· - 1))
    (congrArg (· - 1) hnlink.symm)) ?_
  rintro _ fs₂ ⟨hnow₂, hret₂, _⟩
  have hback : Function.update (fs₀.view.relinked x) x ((fs₀.view.relinked x x).withLinks
        ((fs₀.view.relinked x x).links - 1)) = fs₀.view := by
    have hself : fs₀.view.relinked x x = (fs₀.view x).withLinks ((fs₀.view x).links + 1) :=
      update_self _ _ _
    rw [hself]
    unfold View.relinked
    rw [Function.update_idem]
    simp only [Node.withLinks, UInt16.add_sub_cancel]
    exact Function.update_eq_self x fs₀.view
  rw [hback] at hnow₂
  have hret' := hret.trans ((hret₁.trans hret₂).mono (le_add_one _ ip))
  refine wlp_seq (wlp_iunlockput_now hnow₂ (hset.shelters_same hret' hnow₂
    fun _ => Int.le_refl _)) ?_
  rintro _ fs₃ ⟨hnow₃, _, _⟩
  exact (wlp_pure _).mpr hnow₃

/-- `sys_link` once the old inode has one link more: if the new name cannot be
added, the link is taken away. -/
theorem wlp_linkName_now (hcwd : ∀ ip, cwd = some ip → 0 < fs₀.refs ip) (new : Name) :
    wlp (linkName cwd ip new) fs (fun linked fs' => linked = false →
      Fs.Now fs₀.refs fs₀.view fs₀ fs') := by
  have hnn := hset.nonneg
  have hnn₁ := add_one_nonneg hnn ip
  have hipc := add_one_pos hnn ip
  have hle := le_add_one fs₀.refs ip
  -- only `x` may have lost its links, and the call holds it
  have hshelters : ∀ fs', Fs.Retains fs₀.refs fs₀ fs' → fs'.Has ip x →
      fs'.view = fs₀.view.relinked x → fs'.Shelters (fs₀.refs + one ip) := by
    intro fs' hret' hip' hview
    refine (hset.covers hret').shelters hview hle fun y hy hzero => ?_
    by_cases heq : y = x
    · exact Or.inr ⟨ip, hipc, heq ▸ hip'.inum, hip'.loaded.valid⟩
    · unfold View.relinked at hy hzero
      rw [update_of_ne heq] at hy hzero
      exact Or.inl ⟨hy, hzero⟩
  unfold linkName nameiparent
  refine wlp_seq (wlp_namex_now hnow hnn₁ (hshelters fs hret hip hnow.view) ?_ new true) ?_
  · intro e heq
    have he := hcwd e heq
    refine ⟨Int.lt_of_lt_of_le he (hle e), ?_⟩
    rw [hret.inum e he, hret.kind e he (hset.alive e he)]
    exact hset.alive e he
  rintro found fs₁ ⟨hret₁, _, ⟨rfl, hnow₁, _⟩ |
    ⟨dp, d, name, rfl, hnow₁, hnum, hin, _⟩⟩
  · exact wlp_mono (wlp_linkBad_now hset hnow₁ (hret.trans (hret₁.mono hle))
      (hnow₁.has hret₁ hipc hipc hip)) fun _ _ hback _ => hback
  have hipc₁ : 0 < (fs₀.refs + one ip + one dp) ip :=
    Int.lt_of_lt_of_le hipc (le_add_one _ dp ip)
  dsimp only
  refine wlp_seq (wlp_ilock_now hnow₁ hnum hin) ?_
  rintro _ fs₂ ⟨hnow₂, hret₂, hdp, _⟩
  have hret₁₂ := hret₁.trans (hret₂.mono (le_add_one _ dp))
  have hip₂ := hnow₂.has hret₁₂ hipc hipc₁ hip
  have hret₀₂ := hret.trans (hret₁₂.mono hle)
  rw [wlp_bind, wlp_read, hip₂.inum]
  refine wlp_seq (wlp_dirlink_now hnow₂ (add_one_nonneg hnn₁ dp)
    ((hshelters fs₂ hret₀₂ hip₂ hnow₂.view).mono (le_add_one _ dp)) hdp name
    (hnow.lt hip)) ?_
  rintro linked fs₃ ⟨hret₃, _, hlinked⟩
  rw [wlp_bind]
  rcases hlinked with ⟨rfl, hnow₃⟩ | ⟨rfl, _⟩
  · have hip₃ := hnow₃.has hret₃ hipc₁ hipc₁ hip₂
    have hret₀₃ := hret₀₂.trans (hret₃.mono (le_add_two fs₀.refs ip dp))
    refine wlp_mono (wlp_iunlockput_now hnow₃ (hshelters fs₃ hret₀₃ hip₃ hnow₃.view)) ?_
    rintro _ fs₄ ⟨hnow₄, hret₄, _⟩
    exact wlp_mono (wlp_linkBad_now hset hnow₄ (hret₀₃.trans (hret₄.mono hle))
      (hnow₄.has hret₄ hipc hipc hip₃)) fun _ _ hback _ => hback
  · intro _ fs₄ _
    rw [if_pos rfl, wlp_bind]
    exact fun _ _ _ => (wlp_pure _).mpr nofun

end

theorem wlp_link_now (hset : fs.Settled) (hcwd : ∀ ip, cwd = some ip → 0 < fs.refs ip)
    (old new : Name) : wlp (link cwd old new) fs (fun linked fs' => linked = false →
      Fs.Now fs.refs fs.view fs fs') := by
  have hnn := hset.nonneg
  unfold link
  refine wlp_seq (wlp_namei_now hset hcwd old) ?_
  rintro found fs₁ ⟨hret₁, ⟨rfl, hnow₁⟩ | ⟨ip, x, rfl, hnow₁, hnum, hin⟩⟩
  · exact (wlp_pure _).mpr fun _ => hnow₁
  have hipc := add_one_pos hnn ip
  have hle := le_add_one fs.refs ip
  dsimp only
  refine wlp_seq (wlp_ilock_now hnow₁ hnum hin) ?_
  rintro _ fs₂ ⟨hnow₂, hret₂, hip₂, _⟩
  have hret₁₂ := hret₁.trans (hret₂.mono hle)
  rw [wlp_bind, wlp_read, wlp_ite]
  split
  · refine wlp_seq (wlp_iunlockput_now hnow₂ (hset.shelters_same hret₁₂ hnow₂
      fun _ => Int.le_refl _)) ?_
    rintro _ fs₃ ⟨hnow₃, _, _⟩
    exact (wlp_pure _).mpr fun _ => hnow₃
  · rw [wlp_bind, wlp_setCopy, wlp_bind]
    have hnlink := hnow₂.links hip₂
    refine wlp_mono (wlp_iupdate_now hnow₂ hip₂ (keepsShape_nlink (· + 1))
      (congrArg (· + 1) hnlink.symm)) ?_
    rintro _ fs₃ ⟨hnow₃, hret₃, _⟩
    have hip₃ := hnow₃.has hret₃ hipc hipc hip₂
    refine wlp_seq (wlp_iunlock_now hnow₃) ?_
    rintro _ fs₄ ⟨hnow₄, hret₄⟩
    exact wlp_linkName_now hset hnow₄ (hret₁₂.trans ((hret₃.trans hret₄).mono hle))
      (hnow₄.has hret₄ hipc hipc hip₃) hcwd new

/-! ### Unlink -/

/-- Once the entry is being removed, the call does not fail. -/
theorem wlp_unlinkEntry_done (dp ip : InodeRef) (off : Nat) (fs : Fs) :
    wlp (unlinkEntry dp ip off) fs (fun removed _ => removed = true) := by
  unfold unlinkEntry
  rw [wlp_bind]
  intro _ fs₁ _
  rw [wlp_ite]
  split
  · exact wlp_panic.mpr trivial
  · simp only [wlp_bind, wlp_read, wlp_pure]
    exact fun _ _ _ _ _ _ _ _ _ _ _ _ _ _ _ => trivial

theorem wlp_unlink_now (hset : fs.Settled) (hcwd : ∀ ip, cwd = some ip → 0 < fs.refs ip)
    (path : Name) : wlp (unlink cwd path) fs (fun removed fs' => removed = false →
      Fs.Now fs.refs fs.view fs fs') := by
  have hnn := hset.nonneg
  unfold unlink nameiparent
  refine wlp_seq (wlp_namex_now hset.start hnn hset.shelters (hset.cwd_alive hcwd) path true) ?_
  rintro found fs₁ ⟨hret₁, _, ⟨rfl, hnow₁, _⟩ |
    ⟨dp, d, name, rfl, hnow₁, hnum, hin, _⟩⟩
  · exact (wlp_pure _).mpr fun _ => hnow₁
  have hle := le_add_one fs.refs dp
  dsimp only
  refine wlp_seq (wlp_ilock_now hnow₁ hnum hin) ?_
  rintro _ fs₂ ⟨hnow₂, hret₂, hdp, _⟩
  have hret₁₂ := hret₁.trans (hret₂.mono hle)
  -- the directory goes back without a change
  have hleave : ∀ fs', Fs.Now (fs.refs + one dp) fs.view fs fs' → Fs.Retains fs.refs fs fs' →
      wlp (iunlockput dp >>= fun _ => pure false) fs' (fun removed fs'' =>
        removed = false → Fs.Now fs.refs fs.view fs fs'') := by
    intro fs' hnow' hret'
    refine wlp_seq (wlp_iunlockput_now hnow' (hset.shelters_same hret' hnow'
      fun _ => Int.le_refl _)) ?_
    rintro _ fs'' ⟨hnow'', _, _⟩
    exact (wlp_pure _).mpr fun _ => hnow''
  rw [wlp_ite]
  split
  · exact hleave fs₂ hnow₂ hret₁₂
  refine wlp_seq (wlp_dirlookup_now hnow₂ hdp name) ?_
  rintro entry fs₃ ⟨_, ⟨rfl, rfl, _⟩ | ⟨ip, off, e, rfl, _, hnow₃, hret₃, _, hinum, hein⟩⟩
  · exact hleave fs₃ hnow₂ hret₁₂
  dsimp only
  refine wlp_seq (wlp_ilock_now hnow₃ hinum hein) ?_
  rintro _ fs₄ ⟨hnow₄, hret₄, hip, _⟩
  have hret₁₄ := (hret₁₂.trans (hret₃.mono hle)).trans (hret₄.mono (le_add_two fs.refs dp ip))
  rw [wlp_bind, wlp_read, wlp_ite]
  split
  · exact wlp_panic.mpr trivial
  refine wlp_seq (wlp_mayUnlink hnow₄.ok hip.loaded) ?_
  rintro free fs₅ rfl
  rw [wlp_ite]
  split
  · refine wlp_mono (wlp_unlinkEntry_done dp ip off fs₅) ?_
    rintro _ fs₅ rfl
    nofun
  · refine wlp_seq (wlp_iunlockput_now hnow₄ (hset.shelters_same hret₁₄ hnow₄ hle)) ?_
    rintro _ fs₅ ⟨hnow₅, hret₅, _⟩
    exact hleave fs₅ hnow₅ (hret₁₄.trans (hret₅.mono hle))

end Calls

end CkptKernel
