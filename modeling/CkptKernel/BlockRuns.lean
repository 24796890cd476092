/-
Block ownership along runs of file system calls.  Callers hold references to
inodes and use them one call at a time; between two calls every block has
exactly the owner that the free map says it has.
-/
import CkptKernel.CallRuns
import CkptKernel.NameCalls

namespace CkptKernel

open ByteMem Code Machine Ownership

/-- The file system, and how many references to each inode its callers hold. -/
structure FsUse where
  fs : Fs
  held : InodeRef → Nat

inductive FsCall where
  | namei (cwd : Option InodeRef) (path : Name)
  | create (cwd : Option InodeRef) (path : Name) (type major minor : UInt16)
  | readi (ip : InodeRef) (buf : Buffer) (off n : Nat)
  | writei (ip : InodeRef) (buf : Buffer) (off n : Nat)
  | itrunc (ip : InodeRef)
  | link (cwd : Option InodeRef) (old new : Name)
  | unlink (cwd : Option InodeRef) (path : Name)
  | iput (ip : InodeRef)

def underLock {A : Type} (ip : InodeRef) (code : Code Fs A) : Code Fs (Option InodeRef) := do
  ilock ip
  let _ ← code
  iunlock ip
  pure none

/-- What a call runs; the result is an inode that the caller now has one more
reference to. -/
def FsCall.code : FsCall → Code Fs (Option InodeRef)
  | .namei cwd path => CkptKernel.namei cwd path
  | .create cwd path type major minor => do
    let ip ← CkptKernel.create cwd path type major minor
    match ip with
    | none => pure none
    | some ip => do
      iunlock ip
      pure (some ip)
  | .readi ip buf off n => underLock ip (CkptKernel.readi ip buf off n)
  | .writei ip buf off n => underLock ip (CkptKernel.writei ip buf off n)
  | .itrunc ip => underLock ip (CkptKernel.itrunc ip)
  | .link cwd old new => do
    let _ ← CkptKernel.link cwd old new
    pure none
  | .unlink cwd path => do
    let _ ← CkptKernel.unlink cwd path
    pure none
  | .iput ip => do
    CkptKernel.iput ip
    pure none

def FsCall.transaction (call : FsCall) : Code Fs (Option InodeRef) := do
  beginOp
  let got ← call.code
  endOp
  pure got

/-- Callers use references they hold; counts are `uint`s; to a directory they
write, as the kernel does, only whole entries that name inodes of the disk. -/
def FsUse.Allows (use : FsUse) : FsCall → Prop
  | .namei cwd _ | .create cwd _ _ _ _ | .link cwd _ _ | .unlink cwd _ =>
    ∀ ip, cwd = some ip → 0 < use.held ip
  | .readi ip _ _ _ | .itrunc ip | .iput ip => 0 < use.held ip
  | .writei ip buf off n => 0 < use.held ip ∧ n < 2 ^ 32 ∧
      ((use.fs.dinode (use.fs.inode ip).inum).type = T_DIR →
        buf.IsEntry use.fs.sb.ninodes off n)

def FsCall.heldAfter (held : InodeRef → Nat) (got : Option InodeRef) : FsCall → InodeRef → Nat
  | .iput ip => Function.update held ip (held ip - 1)
  | _ =>
    match got with
    | some ip => Function.update held ip (held ip + 1)
    | none => held

def useStep (use : FsUse) (call : FsCall) : Option FsUse :=
  outcome (fun got fs => ⟨fs, call.heldAfter use.held got⟩)
    (call.transaction use.fs)

/-- References as the lemmas on calls count them. -/
def FsUse.refs (use : FsUse) : InodeRef → Int := fun e => use.held e

/-- The file system is in order, its free map exact, and what the callers hold
is counted. -/
structure FsUse.Consistent (use : FsUse) : Prop where
  ok : use.fs.Ok
  tidy : use.fs.Tidy
  held : use.fs.Held use.refs
  inum : ∀ e, 0 < use.held e → (use.fs.inode e).inum < use.fs.sb.ninodes

namespace FsUse.Consistent

variable {use : FsUse}

theorem nonneg (use : FsUse) (e : InodeRef) : 0 ≤ use.refs e :=
  Int.natCast_nonneg _

theorem pos {e : InodeRef} (hheld : 0 < use.held e) : 0 < use.refs e :=
  Int.natCast_pos.mpr hheld

variable (huse : use.Consistent)
include huse

theorem cwdHeld {cwd : Option InodeRef} (hcwd : ∀ ip, cwd = some ip → 0 < use.held ip) :
    use.fs.CwdHeld use.refs cwd := fun ip heq =>
  ⟨pos (hcwd ip heq), huse.inum ip (hcwd ip heq)⟩

/-- A call that changes what is held by `d`. -/
theorem evolves {fs' : Fs} {held' : InodeRef → Nat} {d : InodeRef → Int}
    (hev : Fs.Evolves use.refs d use.fs fs') (hheld : ∀ e, (held' e : Int) = use.held e + d e)
    (hnew : ∀ e, use.held e = 0 → 0 < held' e → (fs'.inode e).inum < use.fs.sb.ninodes) :
    (FsUse.mk fs' held').Consistent := by
  refine ⟨hev.ok, hev.tidy huse.tidy, ?_, ?_⟩
  · intro e
    have hle := huse.held e
    change (held' e : Int) ≤ (fs'.inode e).ref
    rw [hheld, hev.ref]
    simp only [FsUse.refs] at hle
    omega
  · intro e he
    change (fs'.inode e).inum < fs'.sb.ninodes
    rw [hev.sb]
    by_cases hold : use.held e = 0
    · exact hnew e hold he
    · have hpos : 0 < use.held e := Nat.pos_of_ne_zero hold
      rw [hev.inum e (pos hpos)]
      exact huse.inum e hpos

/-- A call that leaves the references as they are. -/
theorem evolves_zero {fs' : Fs} (hev : Fs.Evolves use.refs 0 use.fs fs') :
    (FsUse.mk fs' use.held).Consistent :=
  huse.evolves hev (fun e => by simp) fun e hzero hpos => by
    rw [hzero] at hpos
    exact (Nat.lt_irrefl 0 hpos).elim

/-- A call that takes a reference. -/
theorem gain {fs' : Fs} {ip : InodeRef} (hev : Fs.Evolves use.refs (one ip) use.fs fs')
    (hinum : (fs'.inode ip).inum < use.fs.sb.ninodes) :
    (FsUse.mk fs' (Function.update use.held ip (use.held ip + 1))).Consistent := by
  refine huse.evolves hev ?_ ?_
  · intro e
    by_cases heq : e = ip
    · rw [heq, Function.update_self, one_self]
      push_cast
      rfl
    · rw [Function.update_of_ne heq, one_of_ne heq, Int.add_zero]
  · intro e hzero hpos
    by_cases heq : e = ip
    · exact heq ▸ hinum
    · rw [Function.update_of_ne heq, hzero] at hpos
      exact (Nat.lt_irrefl 0 hpos).elim

theorem withLog (log : Log) : (FsUse.mk (use.fs.withLog log) use.held).Consistent :=
  ⟨huse.ok.withLog log, huse.tidy.of_disk rfl rfl, huse.held, huse.inum⟩

end FsUse.Consistent

/-- Reading below the size of a file without holes changes nothing. -/
theorem wlp_readLoop_same {fs : Fs} {ip : InodeRef} {off n : Nat}
    (hfull : (fs.inode ip).copy.Full fs.disk) (hsize : off + n ≤ (fs.inode ip).copy.size.toNat)
    (buf : Buffer) (fuel tot : Nat) (dst : Bytes) :
    wlp (readLoop ip buf off n fuel tot dst) fs (fun _ fs' => fs' = fs) := by
  induction fuel generalizing tot dst with
  | zero => exact (wlp_pure _).mpr rfl
  | succ fuel ih =>
    unfold readLoop
    rw [wlp_ite]
    split
    · have hmapped := hfull.mapped_at (o := off + tot) (by omega)
      rw [wlp_bind]
      intro addr fs' hrun
      rw [bmap_mapped hmapped.1 hmapped.2] at hrun
      cases hrun
      rw [if_neg hmapped.2]
      rw [bread, wlp_bind, wlp_bind, wlp_read, wlp_pure]
      dsimp only
      rw [wlp_ite]
      split
      · exact (wlp_pure _).mpr rfl
      · exact ih _ _
    · exact (wlp_pure _).mpr rfl

theorem wlp_readi_same {fs : Fs} {ip : InodeRef} (hfull : (fs.inode ip).copy.Full fs.disk)
    (buf : Buffer) (off n : Nat) : wlp (readi ip buf off n) fs (fun _ fs' => fs' = fs) := by
  unfold readi
  rw [wlp_bind, wlp_read, wlp_ite]
  split
  · exact (wlp_pure _).mpr rfl
  · refine wlp_readLoop_same hfull ?_ _ _ _ _
    split <;> omega

section Step

variable {use : FsUse}

variable (huse : use.Consistent)
include huse

/-- Work under the lock of a held inode, by code that leaves references
alone. -/
theorem ends_underLock {A : Type} {code : Code Fs A} {ip : InodeRef} (hip : 0 < use.held ip)
    (hcode : ∀ fs', fs'.Ok → fs'.Loaded ip → fs' = use.fs.lockInode ip →
      ends code fs' (fun _ fs'' => Fs.Evolves use.refs 0 fs' fs'') Lawful) :
    ends (underLock ip code) use.fs (fun got fs' => got = none ∧
      (FsUse.mk fs' use.held).Consistent) Lawful := by
  unfold underLock
  refine ends_seq (ends_and (ends_ilock huse.ok (huse.inum ip hip) use.refs)
    (wlp_ilock huse.ok ip)) ?_
  rintro _ fs₁ ⟨⟨hlocked, _⟩, hlock⟩
  refine ends_seq (hcode fs₁ hlock.looks.ok hlock.loaded hlocked) ?_
  intro _ fs₂ hev
  rw [ends_bind]
  refine Quiet.ends (quiet_iunlock ip) (wlp_mono (wlp_iunlock ip) ?_)
  rintro _ fs₃ ⟨rfl, hpos, _⟩
  have hunlock := looks_unlockInode (hev.ok.unlockInode hpos) use.refs
  exact ⟨rfl, huse.evolves_zero ((hlock.looks.evolves.zero_trans hev).zero_trans hunlock.evolves)⟩

/-- One call leaves everything consistent and stops only lawfully. -/
theorem ends_call {call : FsCall} (hallow : use.Allows call) : ends call.code use.fs (fun got fs' =>
      (FsUse.mk fs' (call.heldAfter use.held got)).Consistent) Lawful := by
  have hnn := FsUse.Consistent.nonneg use
  cases call with
  | namei cwd path =>
    refine ends_mono (ends_namei huse.ok hnn huse.held (huse.cwdHeld hallow) path) ?_
    rintro found fs' (⟨rfl, hmiss⟩ | ⟨ip, rfl, hnamed⟩)
    · exact huse.evolves_zero hmiss.looks.evolves
    · exact huse.gain hnamed.looks.evolves hnamed.inum
  | create cwd path type major minor =>
    unfold FsCall.code
    refine ends_seq (ends_create huse.ok hnn huse.held
      ((huse.cwdHeld hallow).cwdOk huse.held) path type major minor) ?_
    intro found fs₁ hend
    cases found with
    | none =>
      cases hend with
      | none hev _ => exact huse.evolves_zero hev
    | some ip =>
      obtain ⟨hev, hloaded, _⟩ := hend.some_evolves
      dsimp only
      rw [ends_bind]
      refine Quiet.ends (quiet_iunlock ip) (wlp_mono (wlp_iunlock ip) ?_)
      rintro _ fs₂ ⟨rfl, hpos, _⟩
      have hunlock := looks_unlockInode (hev.ok.unlockInode hpos) use.refs
      refine huse.gain (hev.trans_zero hunlock.evolves) ?_
      rw [Fs.unlockInode, withInode_self, ← hev.sb]
      exact hloaded.inum hev.ok
  | readi ip buf off n =>
    refine ends_mono (ends_underLock huse hallow ?_) fun got fs' hpost => by
      rw [hpost.1]
      exact hpost.2
    intro fs₁ hok₁ hloaded _
    refine Quiet.ends (quiet_readi buf off n) (wlp_mono
      (wlp_readi_same (hok₁.full hloaded) buf off n) ?_)
    rintro _ fs₂ rfl
    exact .refl _ hok₁
  | writei ip buf off n =>
    obtain ⟨hip, hn, hwrite⟩ := hallow
    refine ends_mono (ends_underLock huse hip ?_) fun got fs' hpost => by
      rw [hpost.1]
      exact hpost.2
    intro fs₁ hok₁ hloaded hlocked
    have hwrite₁ : fs₁.WriteOk ip buf off n := by
      intro hdir
      rw [hlocked, Fs.lockInode, withInode_self] at hdir
      rw [hlocked]
      exact hwrite hdir
    refine Quiet.ends (quiet_writei buf off n) (wlp_mono (wlp_writei
      (hok₁.working hloaded.ref hloaded.valid) buf off hn) ?_)
    rintro result fs₂ (⟨_, rfl⟩ | ⟨t, _, hwrote⟩)
    · exact .refl _ hok₁
    · exact hwrote.evolves hok₁ hloaded hwrite₁ _
  | itrunc ip =>
    refine ends_mono (ends_underLock huse hallow ?_) fun got fs' hpost => by
      rw [hpost.1]
      exact hpost.2
    intro fs₁ hok₁ hloaded _
    exact ends_mono (ends_itrunc (hok₁.working hloaded.ref hloaded.valid))
      fun _ _ htrunc => (htrunc.evolves hok₁ hloaded _).1
  | link cwd old new =>
    unfold FsCall.code
    exact ends_seq (ends_link huse.ok hnn huse.held (huse.cwdHeld hallow)
      old new) fun _ _ hev => huse.evolves_zero hev
  | unlink cwd path =>
    unfold FsCall.code
    exact ends_seq (ends_unlink huse.ok hnn huse.held (huse.cwdHeld hallow)
      path) fun _ _ hev => huse.evolves_zero hev
  | iput ip =>
    have hpos : 0 < use.held ip := hallow
    unfold FsCall.code
    rw [ends_bind]
    have hheld : use.fs.Held (use.refs - one ip + one ip) := by
      rw [sub_add_cancel]
      exact huse.held
    refine ends_mono (ends_iput_looks huse.ok hheld
      (Int.lt_of_lt_of_le (FsUse.Consistent.pos hpos) (huse.held ip))) ?_
    rintro _ fs' ⟨hput, _⟩
    rw [ends_pure]
    have hafter : ∀ e, ((Function.update use.held ip (use.held ip - 1) e :
        Nat) : Int) = (use.refs - one ip) e := by
      intro e
      rw [Pi.sub_apply, FsUse.refs]
      by_cases heq : e = ip
      · rw [heq, Function.update_self, one_self]
        omega
      · rw [Function.update_of_ne heq, one_of_ne heq, Int.sub_zero]
    refine ⟨hput.ok, hput.tidy huse.tidy, ?_, ?_⟩
    · intro e
      change ((Function.update use.held ip (use.held ip - 1) e : Nat) : Int) ≤ (fs'.inode e).ref
      have hle := huse.held e
      rw [hafter, hput.ref, Pi.sub_apply, Pi.neg_apply]
      omega
    · intro e he
      change (fs'.inode e).inum < fs'.sb.ninodes
      have hkept : 0 < (use.refs - one ip) e := by
        rw [← hafter]
        exact Int.natCast_pos.mpr he
      have hnn' := one_nonneg ip e
      rw [hput.inum e hkept, hput.sb]
      refine huse.inum e (Int.natCast_pos.mp (?_ : 0 < use.refs e))
      rw [Pi.sub_apply] at hkept
      omega

/-- Reading under the lock leaves the disk alone. -/
theorem wlp_read_disk {ip : InodeRef} (hip : 0 < use.held ip) (buf : Buffer) (off n : Nat) :
    wlp (FsCall.readi ip buf off n).code use.fs (fun _ fs' => fs'.disk = use.fs.disk) := by
  unfold FsCall.code underLock
  refine wlp_seq (wlp_and (wlp_ilock huse.ok ip)
    (wlp_of_ends (ends_ilock huse.ok (huse.inum ip hip) use.refs))) ?_
  rintro _ fs₁ ⟨⟨rfl, _⟩, hlock⟩
  refine wlp_seq (wlp_readi_same (hlock.looks.ok.full hlock.loaded) buf off n) ?_
  rintro _ fs₂ rfl
  refine wlp_seq (wlp_iunlock ip) ?_
  rintro _ fs₃ ⟨rfl, _, _⟩
  exact (wlp_pure _).mpr rfl

theorem ends_transaction {call : FsCall} (hallow : use.Allows call) :
    ends call.transaction use.fs (fun got fs' =>
      (FsUse.mk fs' (call.heldAfter use.held got)).Consistent) Lawful := by
  unfold FsCall.transaction
  rw [ends_bind]
  refine Quiet.ends quiet_beginOp (wlp_beginOp ?_)
  have hbegun := huse.withLog use.fs.log.reserve
  refine ends_seq (@ends_call (FsUse.mk _ use.held) hbegun call (by cases call <;> exact hallow)) ?_
  intro got fs₁ hdone
  rw [ends_bind]
  exact Quiet.ends quiet_endOp (wlp_endOp fun log => hdone.withLog log)

theorem useStep_consistent {call : FsCall} (hallow : use.Allows call) {next : FsUse}
    (hstep : useStep use call = some next) : next.Consistent := by
  obtain ⟨got, fs', hrun, rfl⟩ := outcome_eq_some hstep
  exact wlp_of_ends (ends_transaction huse hallow) _ _ hrun

end Step

/-- In every state between calls, the free map marks the metadata and the
blocks with an owner, which is one place of one allocated inode; files have no
holes, so that reading changes nothing; and no call that may come next gives
back a block that is free. -/
theorem blocks_have_one_owner {start final : FsUse} {calls : List FsCall}
    (hstart : start.Consistent) (hmeets : RunMeets useStep FsUse.Allows start calls)
    (hrun : run useStep start calls = some final) :
    (∀ b, b < final.fs.sb.size → (final.fs.used b = true ↔ b < final.fs.sb.datastart ∨
        ∃! place, LivePlace final.fs.sb final.fs.dinode place ∧
          placeAddr final.fs.dinode final.fs.disk place = b)) ∧
    (∀ p q, LivePlace final.fs.sb final.fs.dinode p → LivePlace final.fs.sb final.fs.dinode q →
      placeAddr final.fs.dinode final.fs.disk p ≠ 0 → placeAddr final.fs.dinode final.fs.disk p =
        placeAddr final.fs.dinode final.fs.disk q → p = q) ∧
    (∀ inum bn, inum < final.fs.sb.ninodes → (final.fs.dinode inum).type ≠ 0 →
      bn * BSIZE < (final.fs.dinode inum).size.toNat →
      (final.fs.dinode inum).blockAt final.fs.disk (slotOf bn) ≠ 0) ∧
    (∀ ip buf off n got fs', 0 < final.held ip →
      (FsCall.readi ip buf off n).code final.fs = .ok (got, fs') →
      fs'.disk = final.fs.disk) ∧ (∀ call reason, final.Allows call →
      call.transaction final.fs = .error reason → reason ≠ .panic "freeing free block") := by
  have hfinal : final.Consistent :=
    run_invariant (fun _ _ _ huse hallow hstep =>
      useStep_consistent huse hallow hstep) hstart hmeets hrun
  have hsound := hfinal.ok.sound
  refine ⟨?_, hsound.owned.unique, ?_, ?_, ?_⟩
  · intro b hb
    constructor
    · intro hused
      by_cases hdata : b < final.fs.sb.datastart
      · exact Or.inl hdata
      have hgiven : final.fs.Given b := ⟨Nat.le_of_not_lt hdata, hb, hused⟩
      obtain ⟨place, hlive, heq⟩ := hfinal.tidy b hgiven
      refine Or.inr ⟨place, ⟨hlive, heq⟩, ?_⟩
      rintro other ⟨hother, hsame⟩
      refine hsound.owned.unique other place hother hlive ?_ (hsame.trans heq.symm)
      rw [hsame]
      rintro rfl
      exact final.fs.not_given_zero hgiven
    · rintro (hdata | ⟨place, ⟨hlive, heq⟩, _⟩)
      · exact hsound.marked b hdata hb
      by_cases hzero : b = 0
      · subst hzero
        exact hsound.marked 0 (Nat.succ_pos _) hb
      · have hgiven := hsound.owned.given place hlive (heq ▸ hzero)
        exact heq ▸ hgiven.2.2
  · intro inum bn hinum htype hbn
    exact (hsound.full inum hinum htype).mapped bn hbn
  · intro ip buf off n got fs' hheld hread
    exact wlp_read_disk hfinal hheld buf off n _ _ hread
  · intro call reason hallow hstop
    have hlawful : Lawful reason :=
      ends_error (ends_transaction hfinal hallow) hstop
    exact hlawful

/-- The first process holds the root directory. -/
def bootUse : FsUse := ⟨bootFs, fun e => if e = 0 then 1 else 0⟩

theorem bootFs_used : ∀ b, b < 200 → 6 ≤ b → bootFs.used b = true → b = 6 ∨ b = 7 := by
  decide +kernel

theorem bootUse_consistent : bootUse.Consistent := by
  refine ⟨bootKernel_boot.ok, ?_, ?_, ?_⟩
  · rintro b ⟨hdata, hsize, hused⟩
    rcases bootFs_used b hsize hdata hused with rfl | rfl
    · exact ⟨(1, .addr 0), ⟨by decide, by decide +kernel, trivial⟩, by decide +kernel⟩
    · exact ⟨(2, .addr 0), ⟨by decide, by decide +kernel, trivial⟩, by decide +kernel⟩
  · intro e
    change ((if e = 0 then 1 else 0 : Nat) : Int) ≤ (bootFs.inode e).ref
    split
    next heq =>
      rw [heq]
      decide +kernel
    · exact bootKernel_boot.ok.ref e
  · intro e he
    have heq : e = 0 := by
      by_contra hne
      simp [bootUse, hne] at he
    rw [heq]
    decide +kernel

/-- Unlinking the file `c` gives its block back. -/
theorem blocks_have_one_owner_unlink :
    ∃ final, run useStep bootUse [.unlink (some 0) [99]] = some final ∧
      bootUse.fs.used 7 = true ∧ final.fs.used 7 = false ∧
      ∀ place, LivePlace final.fs.sb final.fs.dinode place →
        placeAddr final.fs.dinode final.fs.disk place ≠ 7 := by
  have hseen : ∃ final ∈ run useStep bootUse [.unlink (some 0) [99]],
      final.fs.used 7 = false ∧ 7 < final.fs.sb.size := by
    decide +kernel
  obtain ⟨final, hrun, hused, hsize⟩ := hseen
  have hmeets : RunMeets useStep FsUse.Allows bootUse [.unlink (some 0) [99]] := by
    refine ⟨?_, fun _ _ => trivial⟩
    rintro ip heq
    cases heq
    decide
  obtain ⟨hmap, hunique, _⟩ := blocks_have_one_owner bootUse_consistent hmeets hrun
  refine ⟨final, hrun, by decide +kernel, hused, ?_⟩
  intro place hlive heq
  have hmark := (hmap 7 hsize).mpr (Or.inr ⟨place,
    ⟨hlive, heq⟩, fun other hother => hunique other place hother.1 hlive
      (by rw [hother.2]; decide) (by rw [hother.2, heq])⟩)
  rw [hused] at hmark
  cases hmark

/-- The contents of `c` become an inode whose only block is that of the root
directory, at the place of inode 48; the disk has 16 inodes, but a `writei` to
the root adds an entry "x" for inode 48, and "x" is removed. -/
def strayEntry : List FsCall :=
  [.namei (some 0) [99],
    .writei 1 (.kernel fun i => [2, 0, 0, 0, 0, 0, 1, 0, 0, 0, 0, 0, 6].getD i 0) 0 64,
    .writei 0 (.kernel fun i => [48, 0, 120].getD i 0) 48 16, .unlink (some 0) [120]]

/-- Removing the entry gives the block of the root directory back. -/
theorem strayEntry_frees_root : bootUse.Consistent ∧
    ∃ final, run useStep bootUse strayEntry = some final ∧ final.fs.used 6 = false ∧
      LivePlace final.fs.sb final.fs.dinode (1, .addr 0) ∧
      placeAddr final.fs.dinode final.fs.disk (1, .addr 0) = 6 := by
  have hseen : ∃ final ∈ run useStep bootUse strayEntry, final.fs.used 6 = false ∧
      1 < final.fs.sb.ninodes ∧ (final.fs.dinode 1).type ≠ 0 ∧
      placeAddr final.fs.dinode final.fs.disk (1, .addr 0) = 6 := by
    decide +kernel
  obtain ⟨final, hrun, hfree, hin, htype, haddr⟩ := hseen
  exact ⟨bootUse_consistent, final, hrun, hfree, ⟨hin, htype, trivial⟩, haddr⟩

end CkptKernel
